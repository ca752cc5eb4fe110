import GameMedia.Proofs.Audio.CheckedLines

/-!
# Checked sound

The inverse transform, the synthesis and the bytes of sound with checked accesses. Lines are changed in place where they
belong to two subbands, the filterbank is one buffer that each round shifts, and samples go to the slots of their
channels.
-/

namespace GameMedia.Audio

open List hiding Vector
open Option

variable {slots : List Nat} {n : Nat} {w : Nat × UInt8} {xs : List Int16}

namespace Transform

variable {k count : Nat} {lines : Vector Float32 18}

/-! ## Alias reduction -/

/-- The butterfly with a number, of which every border between subbands has eight. -/
def butterfly? (lines : Lines) (k : Nat) : Option Lines := do
  let factors ← aliasFactors[k % 8]?
  let lower ← minus? (18 * (k / 8 + 1)) (k % 8 + 1)
  let l ← lines[lower]?
  let u ← lines[18 * (k / 8 + 1) + k % 8]?
  let lines ← write? lines lower (l * factors.1 - u * factors.2)
  write? lines (18 * (k / 8 + 1) + k % 8) (u * factors.1 + l * factors.2)

def reduceAliases? (g : GranuleInfo) (lines : Lines) : Option Lines :=
  (List.range (8 * (smoothSubbands g - 1))).foldlM butterfly? lines

/-- What a line above a border becomes. -/
def raised (lines : Lines) (band place : Nat) (x : Float32) : Float32 :=
  x * (aliasFactors.getD place (1, 0)).1 + (lines[18 * band - 1 - place]?).getD 0 * (aliasFactors.getD place (1, 0)).2

/-- What a line below a border becomes. -/
def lowered (lines : Lines) (band place : Nat) (x : Float32) : Float32 :=
  x * (aliasFactors.getD (17 - place) (1, 0)).1 -
    (lines[18 * (band + 1) + (17 - place)]?).getD 0 * (aliasFactors.getD (17 - place) (1, 0)).2

def reduced (lines : Lines) (count : Nat) : Lines :=
  Vector.ofFn fun i =>
    if i.val % 18 < 8 ∧ 0 < i.val / 18 ∧ 8 * (i.val / 18 - 1) + i.val % 18 < count then
      raised lines (i.val / 18) (i.val % 18) (lines.get i)
    else if 10 ≤ i.val % 18 ∧ 8 * (i.val / 18) + (17 - i.val % 18) < count then
      lowered lines (i.val / 18) (i.val % 18) (lines.get i)
    else lines.get i

theorem reduced_zero (lines : Lines) : reduced lines 0 = lines := by
  refine Vector.ext fun i hi => ?_
  rw [reduced, Vector.getElem_ofFn, if_neg (fun h => Nat.not_lt_zero _ h.2.2), if_neg (fun h => Nat.not_lt_zero _ h.2)]
  rfl

/-- A butterfly finds its lines as they were, because no line belongs to two. -/
theorem butterfly?_reduced (lines : Lines) (h : k < 8 * 31) :
    butterfly? (reduced lines k) k = some (reduced lines (k + 1)) := by
  have hlines : lineCount = 576 := rfl
  obtain ⟨band, place, hplace, hk⟩ : ∃ band place, place < 8 ∧ k = 8 * band + place :=
    ⟨k / 8, k % 8, Nat.mod_lt _ (by decide), by omega⟩
  have hdiv : k / 8 = band := by omega
  have hmod : k % 8 = place := by omega
  have hband : band < 31 := by omega
  have hfactors : aliasFactors[place]? = some (aliasFactors.getD place (1, 0)) := by
    refine array_getElem? ?_ _
    rw [aliasFactors, Array.size_map]
    exact hplace
  have hlower : 18 * (band + 1) - (place + 1) < lineCount := by omega
  have hupper : 18 * (band + 1) + place < lineCount := by omega
  have hl : (reduced lines k)[18 * (band + 1) - (place + 1)]? = some (lines.get ⟨_, hlower⟩) := by
    rw [Vector.getElem?_eq_getElem hlower, reduced, Vector.getElem_ofFn, if_neg (by dsimp only; omega),
      if_neg (by dsimp only; omega)]
  have hu : (reduced lines k)[18 * (band + 1) + place]? = some (lines.get ⟨_, hupper⟩) := by
    rw [Vector.getElem?_eq_getElem hupper, reduced, Vector.getElem_ofFn, if_neg (by dsimp only; omega),
      if_neg (by dsimp only; omega)]
  rw [butterfly?, hdiv, hmod, hfactors, some_bind, minus?_eq (by omega), some_bind, hl, some_bind, hu, some_bind,
    write?_eq hlower, some_bind, write?_eq hupper]
  refine congrArg some (Vector.ext fun i hi => ?_)
  rw [Vector.getElem_set, Vector.getElem_set, reduced, reduced, Vector.getElem_ofFn, Vector.getElem_ofFn]
  dsimp only
  by_cases hiu : 18 * (band + 1) + place = i
  · have hi18 : i / 18 = band + 1 := by omega
    have hmod18 : i % 18 = place := by omega
    have hpartner : 18 * (band + 1) - 1 - place = 18 * (band + 1) - (place + 1) := by omega
    rw [if_pos hiu, if_pos (by omega), hi18, hmod18, raised, hpartner, Vector.getElem?_eq_getElem hlower]
    subst hiu
    rfl
  · rw [if_neg hiu]
    by_cases hil : 18 * (band + 1) - (place + 1) = i
    · have hi18 : i / 18 = band := by omega
      have hmod18 : i % 18 = 17 - place := by omega
      have hpartner : 17 - (17 - place) = place := by omega
      rw [if_pos hil, if_neg (by omega), if_pos (by omega), hi18, hmod18, lowered, hpartner,
        Vector.getElem?_eq_getElem hupper]
      subst hil
      rfl
    · rw [if_neg hil]
      refine if_congr (by omega) rfl (if_congr (by omega) rfl rfl)

/-- **Aliases are reduced within the lines.** -/
theorem reduceAliases?_eq (g : GranuleInfo) (lines : Lines) : reduceAliases? g lines = some (reduceAliases g lines) := by
  have hlimit : smoothSubbands g ≤ 32 := by
    unfold smoothSubbands
    split
    · decide
    · split <;> decide
  have hloop : (range (8 * (smoothSubbands g - 1))).foldlM butterfly? (reduced lines 0) =
      some (reduced lines (8 * (smoothSubbands g - 1))) :=
    foldlM_range (reduced lines) fun k hk => butterfly?_reduced lines (by omega)
  rw [reduced_zero] at hloop
  rw [reduceAliases?, hloop]
  refine congrArg some (Vector.ext fun i hi => ?_)
  rw [reduced, reduceAliases, Vector.getElem_ofFn, Vector.getElem_ofFn]
  exact if_congr (by dsimp only; omega) rfl (if_congr (by dsimp only; omega) rfl rfl)

/-! ## Blocks -/

/-- The place of a window in the table of windows. -/
def index : BlockType → Nat
  | .long => 0
  | .start => 1
  | .short => 2
  | .stop => 3

def longBlock? (window : Vector Float32 36) (lines : Vector Float32 18) : Option (Vector Float32 36) :=
  ofFn? 36 fun p => do
    let total ← sum? 18 fun m => do
      let x ← lines[m]?
      let c ← cell? cosines36 m p
      return x * c
    let w ← window[p]?
    return total * w

def shortSample? (window : Vector Float32 36) (lines : Vector Float32 18) (w p : Nat) : Option Float32 := do
  let total ← sum? 6 fun m => do
    let x ← lines[w + 3 * m]?
    let c ← cell? cosines12 m p
    return x * c
  let f ← window[p]?
  return total * f

/-- Adds the sample with a number, of which each of the three windows has twelve. -/
def addSample? (window : Vector Float32 36) (lines : Vector Float32 18) (out : Vector Float32 36) (k : Nat) :
    Option (Vector Float32 36) := do
  let x ← shortSample? window lines (k / 12) (k % 12)
  let old ← out[6 * (k / 12) + k % 12 + 6]?
  write? out (6 * (k / 12) + k % 12 + 6) (old + x)

def shortBlock? (window : Vector Float32 36) (lines : Vector Float32 18) : Option (Vector Float32 36) :=
  (List.range 36).foldlM (addSample? window lines) (Vector.replicate 36 0)

def block? (kind : BlockType) (lines : Vector Float32 18) : Option (Vector Float32 36) := do
  let window ← windows[index kind]?
  if index kind = 2 then shortBlock? window lines else longBlock? window lines

theorem longBlock?_eq (window : Vector Float32 36) (lines : Vector Float32 18) :
    longBlock? window lines = some (longBlock window lines) := by
  refine ofFn?_eq fun p => ?_
  rw [sum?_eq fun m : Fin 18 => lines[m] * cosines36[m][p]]
  · rw [some_bind, Vector.getElem?_eq_getElem p.isLt]
    rfl
  · intro m
    rw [Vector.getElem?_eq_getElem m.isLt, cell?_eq cosines36 m.isLt p.isLt]
    rfl

theorem shortSample?_eq (lines : Vector Float32 18) (w : Fin 3) (p : Fin 12) :
    shortSample? (windows.get 2) lines w p = some (shortSample lines w p) := by
  have hp : p.val < 36 := by omega
  rw [shortSample?, sum?_eq fun m : Fin 6 => lines[w.val + 3 * m.val] * cosines12[m][p]]
  · rw [some_bind, Vector.getElem?_eq_getElem hp]
    rfl
  · intro m
    have hm : w.val + 3 * m.val < 18 := by omega
    rw [Vector.getElem?_eq_getElem hm, cell?_eq cosines12 m.isLt p.isLt]
    rfl

/-- The sample at a place of a window. -/
def sampleOf (lines : Vector Float32 18) (w p : Nat) : Float32 :=
  if h : w < 3 ∧ p < 12 then shortSample lines ⟨w, h.1⟩ ⟨p, h.2⟩ else 0

/-- A window of a short block has a place, and its sample there is among the first `count`. -/
def Covers (count i w : Nat) : Prop := 6 * w + 6 ≤ i ∧ i < 6 * w + 18 ∧ 12 * w + (i - (6 * w + 6)) < count

instance (count i w : Nat) : Decidable (Covers count i w) := inferInstanceAs (Decidable (_ ∧ _ ∧ _))

/-- A place with the sample of a window, if that is among the first `count`. -/
def added (lines : Vector Float32 18) (count i w : Nat) (acc : Float32) : Float32 :=
  if Covers count i w then acc + sampleOf lines w (i - (6 * w + 6)) else acc

/-- A short block behind so many samples. -/
def overlaid (lines : Vector Float32 18) (count : Nat) : Vector Float32 36 :=
  Vector.ofFn fun i => added lines count i 2 (added lines count i 1 (added lines count i 0 0))

theorem added_of_covers {i w : Nat} (h : Covers count i w) (acc : Float32) :
    added lines count i w acc = acc + sampleOf lines w (i - (6 * w + 6)) := if_pos h

theorem added_of_not_covers {i w : Nat} (h : ¬ Covers count i w) (acc : Float32) :
    added lines count i w acc = acc := if_neg h

theorem added_congr {count' i w : Nat} (h : Covers count i w ↔ Covers count' i w) (acc : Float32) :
    added lines count i w acc = added lines count' i w acc := if_congr h rfl rfl

theorem overlaid_zero (lines : Vector Float32 18) : overlaid lines 0 = Vector.replicate 36 0 := by
  have hnone : ∀ i w, ¬ Covers 0 i w := fun i w h => Nat.not_lt_zero _ h.2.2
  refine Vector.ext fun i hi => ?_
  rw [overlaid, Vector.getElem_ofFn, Vector.getElem_replicate, added_of_not_covers (hnone _ _),
    added_of_not_covers (hnone _ _), added_of_not_covers (hnone _ _)]

/-- The next sample is added to one place and to no other. -/
theorem overlaid_succ (lines : Vector Float32 18) {w p i : Nat} (hw : w < 3) (hp : p < 12) :
    added lines (12 * w + p + 1) i 2 (added lines (12 * w + p + 1) i 1 (added lines (12 * w + p + 1) i 0 0)) =
      if 6 * w + p + 6 = i then
        added lines (12 * w + p) i 2 (added lines (12 * w + p) i 1 (added lines (12 * w + p) i 0 0)) + sampleOf lines w p
      else added lines (12 * w + p) i 2 (added lines (12 * w + p) i 1 (added lines (12 * w + p) i 0 0)) := by
  by_cases hi : 6 * w + p + 6 = i
  · have hnew : Covers (12 * w + p + 1) i w := ⟨by omega, by omega, by omega⟩
    have hplace : i - (6 * w + 6) = p := by omega
    have hfuture : ∀ w' ≥ w, ¬ Covers (12 * w + p) i w' := by
      rintro w' hw' ⟨h, -, h'⟩
      omega
    have hother : ∀ w' ≠ w, (Covers (12 * w + p + 1) i w' ↔ Covers (12 * w + p) i w') := by
      intro w' hw'
      unfold Covers
      omega
    rw [if_pos hi]
    obtain rfl | rfl | rfl : w = 0 ∨ w = 1 ∨ w = 2 := by omega
    · rw [added_congr (hother 2 (by decide)), added_congr (hother 1 (by decide)), added_of_covers hnew, hplace,
        added_of_not_covers (hfuture 2 (by decide)), added_of_not_covers (hfuture 2 (by decide)),
        added_of_not_covers (hfuture 1 (by decide)), added_of_not_covers (hfuture 1 (by decide)),
        added_of_not_covers (hfuture 0 (by decide))]
    · rw [added_congr (hother 2 (by decide)), added_congr (hother 0 (by decide)), added_of_covers hnew, hplace,
        added_of_not_covers (hfuture 2 (by decide)), added_of_not_covers (hfuture 2 (by decide)),
        added_of_not_covers (hfuture 1 (by decide))]
    · rw [added_congr (hother 1 (by decide)), added_congr (hother 0 (by decide)), added_of_covers hnew, hplace,
        added_of_not_covers (hfuture 2 (by decide))]
  · have hsame : ∀ w', (Covers (12 * w + p + 1) i w' ↔ Covers (12 * w + p) i w') := by
      intro w'
      unfold Covers
      omega
    rw [if_neg hi, added_congr (hsame 2), added_congr (hsame 1), added_congr (hsame 0)]

theorem addSample?_overlaid (lines : Vector Float32 18) (h : k < 36) :
    addSample? (windows.get 2) lines (overlaid lines k) k = some (overlaid lines (k + 1)) := by
  obtain ⟨w, p, hw, hp, rfl⟩ : ∃ w p, w < 3 ∧ p < 12 ∧ k = 12 * w + p :=
    ⟨k / 12, k % 12, by omega, Nat.mod_lt _ (by decide), by omega⟩
  have hdiv : (12 * w + p) / 12 = w := by omega
  have hmod : (12 * w + p) % 12 = p := by omega
  have hplace : 6 * w + p + 6 < 36 := by omega
  have hsample : shortSample? (windows.get 2) lines w p = some (sampleOf lines w p) := by
    rw [sampleOf, dif_pos ⟨hw, hp⟩]
    exact shortSample?_eq lines ⟨w, hw⟩ ⟨p, hp⟩
  rw [addSample?, hdiv, hmod, hsample, some_bind, Vector.getElem?_eq_getElem hplace, some_bind, write?_eq hplace]
  refine congrArg some (Vector.ext fun i hi => ?_)
  rw [Vector.getElem_set]
  simp only [overlaid, Vector.getElem_ofFn]
  rw [overlaid_succ lines hw hp]
  by_cases hi' : 6 * w + p + 6 = i
  · subst hi'
    rw [if_pos rfl]
  · rw [if_neg hi', if_neg hi']

theorem overlaid_all (lines : Vector Float32 18) : overlaid lines 36 = shortBlock lines := by
  have hadded : ∀ (i : Fin 36) (w : Fin 3) (acc : Float32), added lines 36 i w acc =
      if h : 6 * w.val + 6 ≤ i.val ∧ i.val < 6 * w.val + 18 then
        acc + shortSample lines w ⟨i.val - (6 * w.val + 6), by omega⟩
      else acc := by
    intro i w acc
    by_cases h : 6 * w.val + 6 ≤ i.val ∧ i.val < 6 * w.val + 18
    · rw [dif_pos h, added_of_covers ⟨h.1, h.2, by omega⟩, sampleOf, dif_pos ⟨w.isLt, by omega⟩]
    · rw [dif_neg h, added_of_not_covers fun hc => h ⟨hc.1, hc.2.1⟩]
  refine Vector.ext fun i hi => ?_
  rw [overlaid, shortBlock, Vector.getElem_ofFn, Vector.getElem_ofFn, Fin.foldl_succ_last, Fin.foldl_succ_last,
    Fin.foldl_succ_last, Fin.foldl_zero, ← hadded, ← hadded, ← hadded]
  rfl

theorem block?_of_index {kind : BlockType} {k : Fin 4} (h : index kind = k.val) (lines : Vector Float32 18) :
    block? kind lines = if k.val = 2 then shortBlock? (windows.get k) lines else longBlock? (windows.get k) lines := by
  rw [block?, h, getElem?_get, some_bind]

theorem block?_eq (kind : BlockType) (lines : Vector Float32 18) : block? kind lines = some (block kind lines) := by
  have hshort : shortBlock? (windows.get 2) lines = some (shortBlock lines) := by
    have hloop := foldlM_range (overlaid lines) fun k (hk : k < 36) => addSample?_overlaid lines hk
    rw [overlaid_zero, overlaid_all] at hloop
    exact hloop
  cases kind with
  | long => rw [block?_of_index (k := 0) rfl, if_neg (by decide), longBlock?_eq, block]
  | start => rw [block?_of_index (k := 1) rfl, if_neg (by decide), longBlock?_eq, block]
  | short => rw [block?_of_index (k := 2) rfl, if_pos (by decide), hshort, block]
  | stop => rw [block?_of_index (k := 3) rfl, if_neg (by decide), longBlock?_eq, block]

/-! ## Overlap -/

def subband? (g : GranuleInfo) (lines : Lines) (band : Nat) : Option (Vector Float32 36) := do
  let input ← ofFn? 18 fun i => lines[18 * band + i]?
  block? (subbandKind g band) input

def overlapAdd? (raw : Vector (Vector Float32 36) 32) (overlap : Overlap) : Option (Lines × Overlap) := do
  let samples ← ofFn? lineCount fun i => do
    let x ← cell? raw (i / 18) (i % 18)
    let y ← cell? overlap (i / 18) (i % 18)
    return x + y
  let overlap ← ofFn? 32 fun band => ofFn? 18 fun i => cell? raw band (i + 18)
  return (samples, overlap)

theorem subband?_eq (g : GranuleInfo) (lines : Lines) (band : Fin 32) :
    subband? g lines band = some (block (subbandKind g band) (Vector.ofFn (lineAt lines band))) := by
  have hinput : ofFn? 18 (fun i => lines[18 * band.val + i]?) = some (Vector.ofFn (lineAt lines band)) := by
    refine ofFn?_eq fun i => ?_
    have hlt : 18 * band.val + i.val < lineCount := by
      simp only [lineCount]
      omega
    exact Vector.getElem?_eq_getElem hlt
  rw [subband?, hinput, some_bind, block?_eq]

theorem overlapAdd?_eq (raw : Vector (Vector Float32 36) 32) (overlap : Overlap) :
    overlapAdd? raw overlap = some (overlapAdd raw overlap) := by
  have hsamples : ofFn? lineCount (fun i => do
      let x ← cell? raw (i / 18) (i % 18)
      let y ← cell? overlap (i / 18) (i % 18)
      return x + y) = some (overlapAdd raw overlap).1 := by
    refine ofFn?_eq fun i => ?_
    have hi : i.val < 576 := i.isLt
    rw [cell?_eq raw (by omega) (by omega), cell?_eq overlap (by omega) (by omega)]
    rfl
  have hoverlap : ofFn? 32 (fun band => ofFn? 18 fun i => cell? raw band (i + 18)) =
      some (overlapAdd raw overlap).2 := by
    have hbands : (overlapAdd raw overlap).2 =
        Vector.ofFn fun band : Fin 32 => Vector.ofFn fun i : Fin 18 => raw[band][i.val + 18] := by
      refine Vector.ext fun band hband => ?_
      rw [overlapAdd, Vector.getElem_map, Vector.getElem_ofFn]
      rfl
    rw [hbands]
    refine ofFn?_eq fun band => ofFn?_eq fun i => ?_
    exact cell?_eq raw band.isLt (by omega)
  rw [overlapAdd?, hsamples, some_bind, hoverlap]
  rfl

end Transform

def inverseTransform? (g : GranuleInfo) (lines : Lines) (overlap : Overlap) : Option (Lines × Overlap) := do
  let lines ← Transform.reduceAliases? g lines
  let raw ← ofFn? 32 (Transform.subband? g lines)
  let p ← Transform.overlapAdd? raw overlap
  return (Transform.invertFrequencies p.1, p.2)

/-- **The inverse transform stays within its tables.** -/
theorem inverseTransform?_eq (g : GranuleInfo) (lines : Lines) (overlap : Overlap) :
    inverseTransform? g lines overlap = some (inverseTransform g lines overlap) := by
  have hblocks : ∀ lines, ofFn? 32 (Transform.subband? g lines) = some (Transform.blocks g lines) :=
    fun lines => ofFn?_eq (Transform.subband?_eq g lines)
  rw [inverseTransform?, Transform.reduceAliases?_eq, some_bind, hblocks, some_bind, Transform.overlapAdd?_eq]
  rfl

/-! ## Synthesis -/

namespace Synthesis

def flat (bank : Filterbank) : Vector Float32 1024 :=
  Vector.ofFn fun i => (bank.get ⟨i.val / 64, by omega⟩).get ⟨i.val % 64, by omega⟩

def folded (v : Vector Float32 1024) : Filterbank :=
  Vector.ofFn fun i => Vector.ofFn fun j => v.get ⟨64 * i.val + j.val, by omega⟩

theorem folded_flat (bank : Filterbank) : folded (flat bank) = bank := by
  refine Vector.ext fun i hi => Vector.ext fun j hj => ?_
  have hdiv : (64 * i + j) / 64 = i := by omega
  have hmod : (64 * i + j) % 64 = j := by omega
  simp only [folded, flat, Vector.getElem_ofFn, Vector.get_ofFn, hdiv, hmod]
  rfl

/-- An entry of the buffer, by its round and its place in that. -/
theorem flat_entry (bank : Filterbank) (hi : i < 16) (hj : j < 64) (hn : n = 64 * i + j) :
    (flat bank)[n]? = some bank[i][j] := by
  have hlt : n < 1024 := by omega
  have hdiv : n / 64 = i := by omega
  have hmod : n % 64 = j := by omega
  rw [Vector.getElem?_eq_getElem hlt, flat, Vector.getElem_ofFn]
  simp only [hdiv, hmod]
  rfl

/-- What the subbands give in a round, at a place. -/
def mixed? (lines : Lines) (round i : Nat) : Option Float32 :=
  sum? 32 fun j => do
    let c ← cell? matrix i j
    let x ← lines[18 * j + round]?
    return c * x

/-- The buffer with one more round in front. -/
def push? (lines : Lines) (round : Nat) (v : Vector Float32 1024) : Option (Vector Float32 1024) :=
  ofFn? 1024 fun i => if i < 64 then mixed? lines round i else (minus? i 64).bind (v[·]?)

/-- The lower and the upper halves of the rounds in turn, under the window. -/
def windowed? (v : Vector Float32 1024) : Option (Vector Float32 512) :=
  ofFn? 512 fun n => do
    let x ← v[128 * (n / 64) + n % 64 + if n % 64 < 32 then 0 else 64]?
    let w ← window[n]?
    return x * w

def sample? (u : Vector Float32 512) (j : Nat) : Option Float32 := sum? 16 fun i => u[j + 32 * i]?

/-- The samples of a round, and the buffer behind it. -/
def round? (lines : Lines) (round : Nat) (v : Vector Float32 1024) : Option (List Int16 × Vector Float32 1024) := do
  let v ← push? lines round v
  let u ← windowed? v
  let samples ← (List.range 32).mapM fun j => (sample? u j).map quantize
  return (samples, v)

theorem mixed?_eq (lines : Lines) (round : Fin 18) (i : Fin 64) :
    mixed? lines round i = some ((mixed lines round).get i) := by
  have hsum : mixed? lines round i =
      some (Transform.sum 32 fun j => (matrix.get i).get j * Transform.lineAt lines j round) := by
    refine sum?_eq _ fun j => ?_
    have hlt : 18 * j.val + round.val < lineCount := by
      simp only [lineCount]
      omega
    rw [cell?_eq matrix i.isLt j.isLt, some_bind, Vector.getElem?_eq_getElem hlt]
    rfl
  rw [hsum, mixed, Vector.get_ofFn]
  simp only [Fin.getElem_fin, Vector.getElem_ofFn]
  rfl

theorem push?_eq (lines : Lines) (round : Fin 18) (bank : Filterbank) :
    push? lines round (flat bank) = some (flat (push bank (mixed lines round))) := by
  refine ofFn?_eq fun i => ?_
  have hi := i.isLt
  simp only [push, Vector.get_ofFn]
  by_cases hlt : i.val < 64
  · have hdiv : i.val / 64 = 0 := by omega
    have hmod : i.val % 64 = i.val := by omega
    simp only [if_pos hlt, hdiv, hmod, if_true]
    exact mixed?_eq lines round ⟨i.val, hlt⟩
  · have hdiv : ¬ i.val / 64 = 0 := by omega
    simp only [if_neg hlt, if_neg hdiv]
    have hplace : i.val - 64 = 64 * (i.val / 64 - 1) + i.val % 64 := by omega
    rw [minus?_eq (by omega), bind_some, flat_entry bank (by omega) (by omega) hplace]
    rfl

theorem windowed?_eq (bank : Filterbank) : windowed? (flat bank) = some (Vector.ofFn fun n : Fin 512 =>
    (bank.get ⟨n.val / 32, by omega⟩).get ⟨n.val % 32 + 32 * (n.val / 32 % 2), by omega⟩ * window.get n) := by
  refine ofFn?_eq fun n => ?_
  have hn := n.isLt
  have hplace : (128 * (n.val / 64) + n.val % 64 + if n.val % 64 < 32 then 0 else 64) =
      64 * (n.val / 32) + (n.val % 32 + 32 * (n.val / 32 % 2)) := by
    split
    · omega
    · omega
  rw [flat_entry bank (by omega) (by omega) hplace, some_bind, getElem?_get]
  rfl

theorem sample?_eq (bank : Filterbank) (j : Fin 32) :
    (sample? (Vector.ofFn fun n : Fin 512 =>
      (bank.get ⟨n.val / 32, by omega⟩).get ⟨n.val % 32 + 32 * (n.val / 32 % 2), by omega⟩ * window.get n) j) =
      some (sampleAt bank j) := by
  refine sum?_eq _ fun i => ?_
  have hlt : j.val + 32 * i.val < 512 := by omega
  have hdiv : (j.val + 32 * i.val) / 32 = i.val := by omega
  have hmod : (j.val + 32 * i.val) % 32 = j.val := by omega
  rw [Vector.getElem?_eq_getElem hlt, Vector.getElem_ofFn]
  simp only [hdiv, hmod]
  rfl

theorem round?_eq (lines : Lines) (round : Fin 18) (bank : Filterbank) :
    round? lines round (flat bank) =
      some ((finRange 32).map (fun j => quantize (sampleAt (push bank (mixed lines round)) j)),
        flat (push bank (mixed lines round))) := by
  have hsamples : ∀ u, (range 32).mapM (fun j => (sample? u j).map quantize) =
      (finRange 32).mapM fun j => (sample? u j.val).map quantize := by
    intro u
    rw [← map_coe_finRange_eq_range, mapM_map]
    rfl
  rw [round?, push?_eq, some_bind, windowed?_eq, some_bind, hsamples,
    mapM_eq fun j _ => by rw [sample?_eq, map_some]]
  rfl

end Synthesis

/-! ## Slots -/

def bytesPerGranule : Nat := 4 * lineCount

abbrev GranuleBytes : Type := Vector UInt8 bytesPerGranule

/-- The bytes of sample `n` in the slots of some channels. -/
def sampleWrites (slots : List Nat) (n : Nat) (x : Int16) : List (Nat × UInt8) :=
  slots.flatMap fun slot =>
    [(4 * n + 2 * slot, x.toUInt16.toUInt8), (4 * n + 2 * slot + 1, (x.toUInt16 >>> 8).toUInt8)]

/-- The bytes of the samples from number `n` on. -/
def soundWrites (slots : List Nat) : Nat → List Int16 → List (Nat × UInt8)
  | _, [] => []
  | n, x :: xs => sampleWrites slots n x ++ soundWrites slots (n + 1) xs

/-- Rounds of a granule, each of which writes its samples. -/
def rounds? (lines : Lines) (slots : List Nat) :
    List Nat → Vector Float32 1024 → GranuleBytes → Option (Vector Float32 1024 × GranuleBytes)
  | [], v, out => some (v, out)
  | round :: rest, v, out => do
    let r ← Synthesis.round? lines round v
    let out ← writes? out (soundWrites slots (32 * round) r.1)
    rounds? lines slots rest r.2 out

def synthesize? (lines : Lines) (slots : List Nat) (bank : Filterbank) (out : GranuleBytes) :
    Option (Filterbank × GranuleBytes) := do
  let p ← rounds? lines slots (List.range 18) (Synthesis.flat bank) out
  return (Synthesis.folded p.1, p.2)

def ChannelState.play? (s : ChannelState) (g : GranuleInfo) (lines : Lines) (slots : List Nat) (out : GranuleBytes) :
    Option (ChannelState × GranuleBytes) := do
  let p ← inverseTransform? g lines s.overlap
  let q ← synthesize? p.1 slots s.bank out
  return ({ overlap := p.2, bank := q.1 }, q.2)

theorem soundWrites_append (slots : List Nat) (n : Nat) (xs ys : List Int16) :
    soundWrites slots n (xs ++ ys) = soundWrites slots n xs ++ soundWrites slots (n + xs.length) ys := by
  induction xs generalizing n with
  | nil => rfl
  | cons x xs ih =>
    rw [cons_append, soundWrites, soundWrites, ih, append_assoc, length_cons, Nat.add_assoc,
      Nat.add_comm 1]

/-- Rounds one after another write their samples one after another. -/
theorem rounds?_eq (lines : Lines) (slots : List Nat) (hrs : rs.map Fin.val = range' first rs.length)
    (bank : Filterbank) (out : GranuleBytes) :
    rounds? lines slots (rs.map Fin.val) (Synthesis.flat bank) out =
      (writes? out (soundWrites slots (32 * first) (Synthesis.rounds lines rs bank).1)).map fun out =>
        (Synthesis.flat (Synthesis.rounds lines rs bank).2, out) := by
  induction rs generalizing first bank out with
  | nil => rfl
  | cons r rs ih =>
    rw [map_cons, length_cons, range'_succ, cons.injEq] at hrs
    obtain ⟨rfl, hrest⟩ := hrs
    rw [map_cons, rounds?, Synthesis.round?_eq, some_bind, Synthesis.rounds]
    dsimp only
    rw [soundWrites_append, writes?_append, length_map, length_finRange, ← Nat.mul_succ]
    cases writes? out (soundWrites slots (32 * r.val)
      ((finRange 32).map fun j => Synthesis.quantize (Synthesis.sampleAt (Synthesis.push bank
        (Synthesis.mixed lines r)) j))) with
    | none => rfl
    | some out =>
      rw [some_bind, some_bind]
      exact ih hrest _ out

theorem ChannelState.play?_eq (s : ChannelState) (g : GranuleInfo) (lines : Lines) (slots : List Nat)
    (out : GranuleBytes) :
    s.play? g lines slots out =
      (writes? out (soundWrites slots 0 (s.play g lines).1)).map fun out => ((s.play g lines).2, out) := by
  have hrounds := rounds?_eq (inverseTransform g lines s.overlap).1 slots
    (by rw [map_coe_finRange_eq_range, length_finRange, range_eq_range'] :
      (finRange 18).map Fin.val = range' 0 _) s.bank out
  rw [map_coe_finRange_eq_range, Nat.mul_zero] at hrounds
  rw [play?, inverseTransform?_eq, some_bind, synthesize?, hrounds]
  change _ = (writes? out (soundWrites slots 0 (Synthesis.rounds (inverseTransform g lines s.overlap).1
    (finRange 18) s.bank).1)).map _
  cases writes? out (soundWrites slots 0 (Synthesis.rounds (inverseTransform g lines s.overlap).1 (finRange 18)
    s.bank).1) with
  | none => rfl
  | some out =>
    rw [map_some, map_some, some_bind, Synthesis.folded_flat]
    rfl

/-! ### What is in the slots -/

/-- The byte of a place that samples have, four places apart. -/
def soundByte (xs : List Int16) (i : Nat) : UInt8 :=
  if i % 2 = 0 then (xs.getD (i / 4) 0).toUInt16.toUInt8 else ((xs.getD (i / 4) 0).toUInt16 >>> 8).toUInt8

theorem mem_sampleWrites :
    w ∈ sampleWrites slots n x ↔ ∃ slot ∈ slots, w = (4 * n + 2 * slot, x.toUInt16.toUInt8) ∨
      w = (4 * n + 2 * slot + 1, (x.toUInt16 >>> 8).toUInt8) := by
  simp only [sampleWrites, mem_flatMap, mem_cons, not_mem_nil, or_false]

theorem mem_soundWrites : w ∈ soundWrites slots n xs ↔ ∃ k x, xs[k]? = some x ∧ w ∈ sampleWrites slots (n + k) x := by
  induction xs generalizing n with
  | nil => simp [soundWrites]
  | cons x xs ih =>
    rw [soundWrites, mem_append, ih]
    constructor
    · rintro (h | ⟨k, y, hk, h⟩)
      · exact ⟨0, x, rfl, h⟩
      · refine ⟨k + 1, y, hk, ?_⟩
        rw [Nat.add_comm k 1, ← Nat.add_assoc]
        exact h
    · rintro ⟨k, y, hk, h⟩
      cases k with
      | zero =>
        cases hk
        exact .inl h
      | succ k =>
        refine .inr ⟨k, y, hk, ?_⟩
        rw [Nat.add_comm k 1, ← Nat.add_assoc] at h
        exact h

/-- **The samples of a granule fill the slots of their channels and stay within its bytes.** -/
theorem writes?_soundWrites (hslots : ∀ slot ∈ slots, slot < 2) (hxs : xs.length = lineCount) (out : GranuleBytes) :
    writes? out (soundWrites slots 0 xs) =
      some (Vector.ofFn fun i => if i.val % 4 / 2 ∈ slots then soundByte xs i else out.get i) := by
  have hplace : ∀ w ∈ soundWrites slots 0 xs, w.1 < bytesPerGranule ∧ w.1 % 4 / 2 ∈ slots ∧ w.2 = soundByte xs w.1 := by
    intro w hw
    obtain ⟨k, x, hx, hw⟩ := mem_soundWrites.mp hw
    obtain ⟨slot, hslot, hw⟩ := mem_sampleWrites.mp hw
    have hk : k < lineCount := by
      rw [← hxs]
      exact (List.getElem?_eq_some_iff.mp hx).1
    have hlt := hslots slot hslot
    have hget : xs.getD k 0 = x := by rw [getD_eq_getElem?_getD, hx, getD_some]
    rw [Nat.zero_add] at hw
    simp only [bytesPerGranule]
    rcases hw with rfl | rfl
    · have hmod : (4 * k + 2 * slot) % 4 / 2 = slot := by omega
      have hdiv : (4 * k + 2 * slot) / 4 = k := by omega
      refine ⟨by dsimp only; omega, by dsimp only; rwa [hmod], ?_⟩
      rw [soundByte, if_pos (by dsimp only; omega), hdiv, hget]
    · have hmod : (4 * k + 2 * slot + 1) % 4 / 2 = slot := by omega
      have hdiv : (4 * k + 2 * slot + 1) / 4 = k := by omega
      refine ⟨by dsimp only; omega, by dsimp only; rwa [hmod], ?_⟩
      rw [soundByte, if_neg (by dsimp only; omega), hdiv, hget]
  have hfilled : ∀ i < bytesPerGranule, i % 4 / 2 ∈ slots → i ∈ (soundWrites slots 0 xs).map Prod.fst := by
    intro i hi hslot
    have hk : i / 4 < xs.length := by
      rw [hxs]
      simp only [bytesPerGranule] at hi
      omega
    obtain ⟨b, hb⟩ : ∃ b, (i, b) ∈ sampleWrites slots (0 + i / 4) xs[i / 4] := by
      by_cases heven : i % 2 = 0
      · refine ⟨_, mem_sampleWrites.mpr ⟨i % 4 / 2, hslot, .inl (Prod.ext ?_ rfl)⟩⟩
        dsimp only
        omega
      · refine ⟨_, mem_sampleWrites.mpr ⟨i % 4 / 2, hslot, .inr (Prod.ext ?_ rfl)⟩⟩
        dsimp only
        omega
    exact List.mem_map.mpr ⟨(i, b), mem_soundWrites.mpr ⟨i / 4, _, List.getElem?_eq_getElem hk, hb⟩, rfl⟩
  rw [writes?_eq out (soundByte xs) (fun w hw => (hplace w hw).1) fun w hw => (hplace w hw).2.2]
  refine congrArg some (Vector.ext fun i hi => ?_)
  rw [Vector.getElem_ofFn, Vector.getElem_ofFn]
  refine if_congr ⟨fun hmem => ?_, hfilled i hi⟩ rfl rfl
  obtain ⟨w, hw, rfl⟩ := List.mem_map.mp hmem
  exact (hplace w hw).2.1

/-- The bytes of sound are those of its left and of its right samples in turn. -/
theorem soundBytes_getD (sound : List (Int16 × Int16)) (h : i < 4 * sound.length) :
    (soundBytes sound).getD i 0 =
      if i % 4 / 2 = 0 then soundByte (sound.map Prod.fst) i else soundByte (sound.map Prod.snd) i := by
  rw [soundBytes, getD_toArray]
  induction sound generalizing i with
  | nil => exact absurd h (Nat.not_lt_zero _)
  | cons p sound ih =>
    obtain ⟨l, r⟩ := p
    rw [length_cons] at h
    have hcons : (((l, r) :: sound).flatMap fun p => sampleBytes p.1 ++ sampleBytes p.2) =
        l.toUInt16.toUInt8 :: (l.toUInt16 >>> 8).toUInt8 :: r.toUInt16.toUInt8 :: (r.toUInt16 >>> 8).toUInt8 ::
          sound.flatMap fun p => sampleBytes p.1 ++ sampleBytes p.2 := rfl
    rw [hcons]
    by_cases hlt : i < 4
    · obtain rfl | rfl | rfl | rfl : i = 0 ∨ i = 1 ∨ i = 2 ∨ i = 3 := by omega
      all_goals rfl
    · obtain ⟨k, rfl⟩ : ∃ k, i = k + 4 := ⟨i - 4, by omega⟩
      have hbyte : ∀ (x : Int16) xs, soundByte (x :: xs) (k + 4) = soundByte xs k := by
        intro x xs
        have hdiv : (k + 4) / 4 = k / 4 + 1 := by omega
        have hmod : (k + 4) % 2 = k % 2 := by omega
        rw [soundByte, soundByte, hdiv, hmod, getD_cons_succ]
      have hmod : (k + 4) % 4 = k % 4 := by omega
      rw [getD_cons_succ, getD_cons_succ, getD_cons_succ, getD_cons_succ, map_cons,
        map_cons, hbyte, hbyte, hmod]
      exact ih (by omega)

end GameMedia.Audio
