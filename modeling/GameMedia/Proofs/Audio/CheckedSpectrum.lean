import GameMedia.Proofs.Audio.Carry
import GameMedia.Proofs.Audio.Checked

/-!
# Checked spectra

Main data read with checked accesses: into tables of scalefactors and of lines that have fixed sizes, with the indices
that the side information gives. Nothing is out of range if the fields of the side information have the sizes that its
bits allow, and what is read is what the total definitions read.
-/

namespace GameMedia.Audio

open List hiding Vector
open CheckedRead
open Huffman hiding run_bind_ok run_position_bind

variable {n start count line : Nat} {xs quad : List Int} {g : GranuleInfo} {gs : List GranuleInfo} {reuse : List Bool}
  {tableB : Bool} {bands : Bands} {side : SideInfo} {earlier cs : CodedGranule} {h : Header}

/-! ## Tables of scalefactors -/

/-- The scalefactors of 22 long bands, and those of 13 short bands with three windows each. -/
structure ScaleTables where
  long : Vector Nat 22 := Vector.replicate 22 0
  short : Vector Nat 39 := Vector.replicate 39 0

def shortPlace? (band window : Nat) : Option Nat :=
  if band < 13 ∧ window < 3 then some (3 * band + window) else none

def Scalefactors.tables (s : Scalefactors) : ScaleTables :=
  ⟨Vector.ofFn fun i => s.long.getD i 0, Vector.ofFn fun i => s.short.getD i 0⟩

namespace ScaleTables

variable {band : Nat}

def longAt? (t : ScaleTables) (band : Nat) : Option Nat := t.long[band]?

def shortAt? (t : ScaleTables) (band window : Nat) : Option Nat := (shortPlace? band window).bind (t.short[·]?)

theorem longAt?_eq (s : Scalefactors) (h : band < 22) : s.tables.longAt? band = some (s.longAt band) := by
  rw [longAt?, Scalefactors.tables, Vector.getElem?_ofFn, dif_pos h]
  rfl

theorem shortAt?_eq (s : Scalefactors) (hband : band < 13) (hwindow : window < 3) :
    s.tables.shortAt? band window = some (s.shortAt band window) := by
  rw [shortAt?, shortPlace?, if_pos ⟨hband, hwindow⟩, Option.bind_some, Scalefactors.tables, Vector.getElem?_ofFn,
    dif_pos (by omega)]
  rfl

end ScaleTables

def fill? {n : Nat} (item : BitRead Nat) : List Nat → Vector Nat n → CheckedRead (Vector Nat n)
  | [], v => pure v
  | i :: is, v => do
    let x ← readingBits item
    let v ← need (write? v i x)
    fill? item is v

def fillShort? (item : BitRead Nat) : List Nat → Vector Nat 39 → CheckedRead (Vector Nat 39)
  | [], v => pure v
  | b :: bs, v => do
    let places ← need ((List.range 3).mapM (shortPlace? b))
    let v ← fill? item places v
    fillShort? item bs v

theorem fill?_append (item : BitRead Nat) (is js : List Nat) (v : Vector Nat n) :
    fill? item (is ++ js) v = fill? item is v >>= fill? item js := by
  induction is generalizing v with
  | nil => rfl
  | cons i is ih => simp only [List.cons_append, fill?, bind_assoc, ih]

/-- Numbers for neighbouring places are read in a row. -/
theorem fill?_range' (item : BitRead Nat) (h : start + count ≤ n) (v : Vector Nat n) :
    fill? item (List.range' start count) v =
      readingBits (BitRead.times item count) >>= fun xs => pure (laid v start xs) := by
  induction count generalizing start v with
  | zero =>
    rw [BitRead.times, readingBits_pure, pure_bind, laid_nil]
    rfl
  | succ count ih =>
    rw [List.range'_succ, fill?, BitRead.times, readingBits_bind, bind_assoc]
    refine bind_congr fun x => ?_
    rw [write?_laid (by omega), need_some, pure_bind, ih (by omega), readingBits_bind, bind_assoc]
    refine bind_congr fun xs => ?_
    rw [readingBits_pure, pure_bind, laid_cons v start x xs]

theorem fillShort?_range' (item : BitRead Nat) (h : first + count ≤ 13) (v : Vector Nat 39) :
    fillShort? item (range' first count) v = fill? item (range' (3 * first) (3 * count)) v := by
  induction count generalizing first v with
  | zero => rfl
  | succ count ih =>
    have hplaces : (range 3).mapM (shortPlace? first) = some (range' (3 * first) 3) := by
      have hplace : ∀ {w}, w < 3 → shortPlace? first w = some (3 * first + w) := by
        intro w hw
        exact if_pos ⟨by omega, hw⟩
      change (do
        let a ← shortPlace? first 0
        let b ← shortPlace? first 1
        let c ← shortPlace? first 2
        pure [a, b, c]) = _
      rw [hplace (by decide), hplace (by decide), hplace (by decide)]
      rfl
    have hrange : range' (3 * first) (3 * (count + 1)) =
        range' (3 * first) 3 ++ range' (3 * (first + 1)) (3 * count) := by
      rw [Nat.mul_succ 3 count, Nat.add_comm (3 * count) 3, ← range'_append_1]
      rfl
    rw [range'_succ, fillShort?, hplaces, need_some, pure_bind, hrange, fill?_append]
    refine bind_congr fun v => ih (by omega) v

/-! ## Reading scalefactors -/

def readShort? (g : GranuleInfo) : CheckedRead ScaleTables := do
  let lengths ← need Scalefactors.lengths[g.scaleLengths]?
  if g.mixed then
    let long ← fill? (BitRead.bits lengths.1) (List.range' 0 8) (Vector.replicate 22 0)
    let short ← fillShort? (BitRead.bits lengths.1) (List.range' 3 3) (Vector.replicate 39 0)
    let short ← fillShort? (BitRead.bits lengths.2) (List.range' 6 6) short
    return ⟨long, short⟩
  else
    let short ← fillShort? (BitRead.bits lengths.1) (List.range' 0 6) (Vector.replicate 39 0)
    let short ← fillShort? (BitRead.bits lengths.2) (List.range' 6 6) short
    return { short }

/-- The values that a group takes from the first granule, if it takes them. -/
def reused? (previous : Option ScaleTables) (reuse : List Bool) (group first count : Nat) :
    Option (Option (Array Nat)) :=
  match previous with
  | none => some none
  | some p => do
    if ← reuse[group]? then return some (← slice? p.long.toArray first (first + count))
    else return none

def groups? (lengths : Nat × Nat) (previous : Option ScaleTables) (reuse : List Bool) :
    Nat → List (Nat × Nat × Bool) → Vector Nat 22 → CheckedRead (Vector Nat 22)
  | _, [], v => pure v
  | group, (first, count, isLower) :: gs, v => do
    let v ← match ← need (reused? previous reuse group first count) with
      | some values => need (writes? v ((List.range' first count).zip values.toList))
      | none => fill? (BitRead.bits (if isLower then lengths.1 else lengths.2)) (List.range' first count) v
    groups? lengths previous reuse (group + 1) gs v

def readLong? (g : GranuleInfo) (reuse : List Bool) (previous : Option ScaleTables) : CheckedRead ScaleTables := do
  let lengths ← need Scalefactors.lengths[g.scaleLengths]?
  let long ← groups? lengths previous reuse 0 Scalefactors.groups (Vector.replicate 22 0)
  return { long }

def readScale? (g : GranuleInfo) (reuse : List Bool) (previous : Option ScaleTables) : CheckedRead ScaleTables :=
  if g.isShort then readShort? g else readLong? g reuse previous

theorem lengths_eq (h : index < 16) :
    Scalefactors.lengths[index]? = some (Scalefactors.lengths.getD index (0, 0)) := array_getElem? h _

theorem getD_toArray (xs : List α) (i : Nat) (a : α) : xs.toArray.getD i a = xs.getD i a := by
  rw [Array.getD_eq_getD_getElem?, List.getElem?_toArray, getD_eq_getElem?_getD]

/-- What is laid into an empty table has zeros before and behind it. -/
theorem laid_replicate (start : Nat) (xs : List Nat) :
    laid (Vector.replicate n 0) start xs = Vector.ofFn fun i => (replicate start 0 ++ xs).toArray.getD i 0 := by
  refine Vector.ext fun i hi => ?_
  have hzero : (Vector.replicate n 0).get ⟨i, hi⟩ = 0 := Vector.getElem_replicate hi
  rw [laid, Vector.getElem_ofFn, Vector.getElem_ofFn, hzero, getD_toArray]
  by_cases hle : start ≤ i
  · rw [if_pos hle, getD_append_right _ _ _ _ (by rw [length_replicate]; exact hle), length_replicate]
  · rw [if_neg hle, getD_append _ _ _ _ (by rw [length_replicate]; exact Nat.lt_of_not_le hle)]
    simp

theorem laid_replicate_two {next : Nat} {xs : List Nat} (ys : List Nat) (h : start + xs.length = next) :
    laid (laid (Vector.replicate n 0) start xs) next ys =
      Vector.ofFn fun i => (replicate start 0 ++ xs ++ ys).toArray.getD i 0 := by
  rw [← h, laid_laid, laid_replicate, append_assoc]

theorem replicate_eq : (Vector.replicate n 0 : Vector Nat n) = Vector.ofFn fun i => (#[] : Array Nat).getD i 0 := by
  refine Vector.ext fun i hi => ?_
  rw [Vector.getElem_replicate, Vector.getElem_ofFn]
  rfl

theorem readShort?_eq (h : g.scaleLengths < 16) :
    readShort? g = readingBits (Scalefactors.readShort g) >>= fun s => pure s.tables := by
  rw [readShort?, lengths_eq h, need_some, pure_bind, Scalefactors.readShort]
  dsimp only
  by_cases hmixed : g.mixed = true
  · rw [if_pos hmixed, if_pos hmixed]
    simp only [bind_assoc, pure_bind, readingBits_bind, readingBits_pure]
    rw [fill?_range' _ (by decide), bind_assoc]
    refine bind_congr fun long => ?_
    rw [pure_bind, fillShort?_range' _ (by decide), fill?_range' _ (by decide), bind_assoc]
    refine readingBits_congr (·.length = 9) (BitRead.length_times _ 9) fun low hlow => ?_
    rw [pure_bind, fillShort?_range' _ (by decide), fill?_range' _ (by decide), bind_assoc]
    refine bind_congr fun high => ?_
    have hnext : 3 * 3 + low.length = 3 * 6 := by rw [hlow]
    rw [pure_bind, laid_replicate_two high hnext, laid_replicate]
    rfl
  · rw [if_neg hmixed, if_neg hmixed]
    simp only [bind_assoc, pure_bind, readingBits_bind, readingBits_pure]
    rw [fillShort?_range' _ (by decide), fill?_range' _ (by decide), bind_assoc]
    refine readingBits_congr (·.length = 18) (BitRead.length_times _ 18) fun low hlow => ?_
    rw [pure_bind, fillShort?_range' _ (by decide), fill?_range' _ (by decide), bind_assoc]
    refine bind_congr fun high => ?_
    have hnext : 3 * 0 + low.length = 3 * 6 := by rw [hlow]
    rw [pure_bind, laid_replicate_two high hnext, replicate_eq]
    rfl

/-- Groups that begin where the one before ends, with room for all of them. -/
def Adjoining : Nat → List (Nat × Nat × Bool) → Prop
  | _, [] => True
  | start, (first, count, _) :: gs => first = start ∧ start + count ≤ 22 ∧ Adjoining (start + count) gs

theorem adjoining_groups : Adjoining 0 Scalefactors.groups := by
  simp [Adjoining, Scalefactors.groups]

/-- The scalefactors that a group takes over are those of the first granule. -/
theorem slice?_tables (s : Scalefactors) (h : first + count ≤ 22) :
    slice? s.tables.long.toArray first (first + count) =
      some ((range count).map fun i => s.longAt (first + i)).toArray := by
  have hsize : s.tables.long.toArray.size = 22 := s.tables.long.size_toArray
  rw [slice?_eq (Nat.le_add_right _ _) (by rw [hsize]; exact h)]
  refine congrArg some (Array.ext ?_ fun i hi hi' => ?_)
  · rw [Array.size_extract, hsize, size_toArray, length_map, length_range]
    omega
  · rw [Array.getElem_extract]
    simp [Scalefactors.tables, Scalefactors.longAt]

theorem groups?_eq (lengths : Nat × Nat) (previous : Option Scalefactors) (reuse : List Bool)
    {gs : List (Nat × Nat × Bool)} (hgs : Adjoining start gs) (hreuse : group + gs.length ≤ reuse.length)
    (v : Vector Nat 22) :
    groups? lengths (previous.map Scalefactors.tables) reuse group gs v =
      readingBits (Scalefactors.readGroups lengths previous gs (reuse.drop group)) >>=
        fun xs => pure (laid v start xs) := by
  induction gs generalizing start group v with
  | nil =>
    rw [groups?, Scalefactors.readGroups, readingBits_pure, pure_bind, laid_nil]
  | cons g gs ih =>
    obtain ⟨first, count, isLower⟩ := g
    obtain ⟨rfl, hroom, hgs⟩ := hgs
    rw [length_cons] at hreuse
    have hflag : reuse[group]? = some ((reuse.drop group).headD false) := by
      rw [headD_eq_head?_getD, head?_drop, List.getElem?_eq_getElem (by omega), Option.getD_some]
    -- the groups behind go on where this one ends
    have hlater : ∀ here : List Nat, here.length = count →
        groups? lengths (previous.map Scalefactors.tables) reuse (group + 1) gs (laid v first here) =
          readingBits (Scalefactors.readGroups lengths previous gs (reuse.drop group).tail) >>= fun xs =>
            pure (laid v first (here ++ xs)) := by
      intro here hhere
      rw [ih hgs (by omega), tail_drop]
      refine bind_congr fun xs => ?_
      rw [← hhere, laid_laid]
    have hread : fill? (BitRead.bits (if isLower then lengths.1 else lengths.2)) (range' first count) v >>=
        groups? lengths (previous.map Scalefactors.tables) reuse (group + 1) gs =
        readingBits (BitRead.times (BitRead.bits (if isLower then lengths.1 else lengths.2)) count) >>= fun here =>
          readingBits (Scalefactors.readGroups lengths previous gs (reuse.drop group).tail) >>= fun xs =>
            pure (laid v first (here ++ xs)) := by
      rw [fill?_range' _ hroom, bind_assoc]
      refine readingBits_congr (·.length = count) (BitRead.length_times _ count) fun here hhere => ?_
      rw [pure_bind, hlater here hhere]
    rw [groups?]
    unfold Scalefactors.readGroups
    cases previous with
    | none =>
      rw [Option.map_none] at hread ⊢
      rw [reused?, need_some, pure_bind]
      dsimp only
      rw [hread]
      simp only [readingBits_bind, bind_assoc, readingBits_pure, pure_bind]
    | some p =>
      rw [Option.map_some] at hread hlater ⊢
      rw [reused?, hflag]
      cases hreused : (reuse.drop group).headD false with
      | false =>
        change (need (some none) >>= fun found => _) = _
        rw [need_some, pure_bind]
        dsimp only
        rw [hread]
        simp only [readingBits_bind, bind_assoc, readingBits_pure, pure_bind]
      | true =>
        have hhere : ((range count).map fun i => p.longAt (first + i)).length = count := by
          rw [length_map, length_range]
        change (need ((slice? p.tables.long.toArray first (first + count)).bind fun values => some (some values)) >>=
          fun found => _) = _
        rw [slice?_tables p hroom, Option.bind_some, need_some, pure_bind]
        dsimp only
        rw [writes?_zip hhere hroom, need_some, pure_bind, hlater _ hhere]
        simp only [readingBits_bind, bind_assoc, readingBits_pure, pure_bind]

theorem readLong?_eq (h : g.scaleLengths < 16) (hreuse : 4 ≤ reuse.length) (previous : Option Scalefactors) :
    readLong? g reuse (previous.map Scalefactors.tables) =
      readingBits (Scalefactors.readLong g reuse previous) >>= fun s => pure s.tables := by
  have hgroups : 0 + Scalefactors.groups.length ≤ reuse.length := hreuse
  rw [readLong?, lengths_eq h, need_some, pure_bind, groups?_eq _ _ _ adjoining_groups hgroups, drop_zero,
    Scalefactors.readLong]
  simp only [readingBits_bind, bind_assoc, readingBits_pure, pure_bind]
  refine bind_congr fun long => ?_
  rw [laid_replicate, replicate_eq]
  rfl

/-- **The scalefactors of a part are read within their tables.** -/
theorem readScale?_eq (h : g.scaleLengths < 16) (hreuse : 4 ≤ reuse.length) (previous : Option Scalefactors) :
    readScale? g reuse (previous.map Scalefactors.tables) =
      readingBits (Scalefactors.read g reuse previous) >>= fun s => pure s.tables := by
  unfold readScale? Scalefactors.read
  split
  · exact readShort?_eq h
  · exact readLong?_eq h hreuse previous

/-! ## Lines -/

/-- The lines of a granule and channel, with the zeros behind those that are coded. -/
def padded (lines : Array Int) : Vector Int lineCount := Vector.ofFn fun i => lines.getD i 0

/-- Where the second and the third region of pairs begin. -/
def regions? (g : GranuleInfo) (bands : Bands) : Option (Nat × Nat) :=
  if g.isShort then some (36, lineCount)
  else do return (← bands.long[min (g.region0 + 1) 22]?, ← bands.long[min (g.region0 + g.region1 + 2) 22]?)

def tableAt? (g : GranuleInfo) (regions : Nat × Nat) (line : Nat) : Option Nat :=
  if line < regions.1 then g.tables[0]?
  else if line < regions.2 then g.tables[1]?
  else g.tables[2]?

def readPair? (table : Nat) : CheckedRead (Int × Int) := do
  let _ ← need pairTrees[table]?
  reading (readPair table)

/-- Writes so many pairs from a line on. -/
def readPairs? (g : GranuleInfo) (regions : Nat × Nat) :
    Nat → Nat → Vector Int lineCount → CheckedRead (Vector Int lineCount)
  | _, 0, v => pure v
  | line, n + 1, v => do
    let table ← need (tableAt? g regions line)
    let pair ← readPair? table
    let v ← need (write? v line pair.1)
    let v ← need (write? v (line + 1) pair.2)
    readPairs? g regions (line + 2) n v

/-- Writes quadruples as long as there is room for one and the part has bits. The last of them may go beyond the part. -/
def readQuads? (tableB : Bool) (stop : Nat) (line : Nat) (v : Vector Int lineCount) :
    CheckedRead (Nat × Vector Int lineCount) := do
  if line + 4 ≤ lineCount then
    if stop ≤ (← readingBits BitRead.position) then return (line, v)
    else
      let quad ← reading (readQuad tableB)
      let v ← need (writes? v ((List.range' line 4).zip quad))
      readQuads? tableB stop (line + 4) v
  else return (line, v)
termination_by lineCount - line

def clear? (v : Vector Int lineCount) (line : Nat) : Option (Vector Int lineCount) :=
  if line ≤ lineCount then some (Vector.ofFn fun i => if i.val < line then v.get i else 0) else none

/-- What is kept of the lines up to `last`, which the quadruples from `first` on reach. A last quadruple that goes beyond
the part is taken back. -/
def settle? (stop first last : Nat) (v : Vector Int lineCount) : CheckedRead (Vector Int lineCount × Nat) := do
  let last := if stop < (← readingBits BitRead.position) ∧ first < last then last - 4 else last
  let v ← need (clear? v last)
  readingBits (BitRead.moveTo stop)
  return (v, last)

/-- The lines of a part that began at a position, and where the zeros begin. -/
def readLines? (g : GranuleInfo) (bands : Bands) (start : Nat) : CheckedRead (Vector Int lineCount × Nat) := do
  let v : Vector Int lineCount := Vector.replicate lineCount 0
  if g.length = 0 then return (← need (clear? v 0), 0)
  else
    let stop := start + g.length
    let regions ← need (regions? g bands)
    let v ← readPairs? g regions 0 g.bigValues v
    let quads ← readQuads? g.quadTableB stop (2 * g.bigValues) v
    settle? stop (2 * g.bigValues) quads.1 quads.2

/-! ### Sizes of the side information -/

/-- The fields of a granule have the sizes that their bits allow. -/
structure GranuleInfo.Valid (g : GranuleInfo) : Prop where
  scaleLengths : g.scaleLengths < 16
  bigValues : g.bigValues ≤ maxBigValues
  tables : g.tables.length = 3
  table_lt : ∀ t ∈ g.tables, t < 32
  gains : g.subblockGains.length = 3

/-- Tables of 22 long and 13 short bands that lie side by side and cover all lines. The lines of the two lowest subbands are
those of eight long or of three short bands. -/
class Bands.Regular (b : Bands) : Prop where
  size_long : b.long.size = 23
  size_short : b.short.size = 14
  longStart_zero : b.longStart 0 = 0
  longStart_mixed : b.longStart 8 = 36
  longStart_end : b.longStart 22 = lineCount
  longStart_lt : ∀ {band}, band < 22 → b.longStart band < b.longStart (band + 1)
  shortStart_zero : b.shortStart 0 = 0
  shortStart_mixed : b.shortStart 3 = 36
  shortStart_end : b.shortStart 13 = lineCount
  short_le : ∀ {band}, band < 13 → b.short.getD band 192 ≤ b.short.getD (band + 1) 192

instance (rate : SampleRate) : (Bands.of rate).Regular := by
  have hlong : ∀ band < 22, (Bands.of rate).longStart band < (Bands.of rate).longStart (band + 1) := by
    cases rate <;> decide
  have hshort : ∀ band < 13, (Bands.of rate).short.getD band 192 ≤ (Bands.of rate).short.getD (band + 1) 192 := by
    cases rate <;> decide
  refine ⟨?_, ?_, ?_, ?_, ?_, hlong _, ?_, ?_, ?_, hshort _⟩
  all_goals cases rate <;> rfl

theorem Bands.long_eq [bands.Regular] (h : band < 23) : bands.long[band]? = some (bands.longStart band) :=
  array_getElem? (h.trans_eq Regular.size_long.symm) _

theorem regions?_eq (g : GranuleInfo) [bands.Regular] :
    regions? g bands = some (CodedChannel.regions g bands) := by
  unfold regions? CodedChannel.regions
  split
  · rfl
  · rw [Bands.long_eq (by omega), Bands.long_eq (by omega)]
    rfl

theorem tableAt?_eq (hg : g.Valid) (regions : Nat × Nat) (line : Nat) :
    tableAt? g regions line = some (CodedChannel.tableAt g regions line) ∧ CodedChannel.tableAt g regions line < 32
    := by
  have hget : ∀ {k}, k < 3 → g.tables[k]? = some (g.tables.getD k 0) ∧ g.tables.getD k 0 < 32 := by
    intro k hk
    rw [← hg.tables] at hk
    rw [getD_eq_getElem _ _ hk, List.getElem?_eq_getElem hk]
    exact ⟨rfl, hg.table_lt _ (getElem_mem hk)⟩
  unfold tableAt? CodedChannel.tableAt
  split
  · exact hget (by decide)
  · split
    · exact hget (by decide)
    · exact hget (by decide)

theorem readPair?_eq (h : table < 32) : readPair? table = reading (readPair table) := by
  have hsize : table < pairTrees.size := by
    rw [pairTrees, Array.size_map, Array.size_range]
    exact h
  rw [readPair?, Array.getElem?_eq_getElem hsize, need_some, pure_bind]

/-! ### Pairs and quadruples -/

theorem readPairs?_eq (hg : g.Valid) (regions : Nat × Nat) (h : line + 2 * n ≤ lineCount) (v : Vector Int lineCount) :
    readPairs? g regions line n v =
      reading (CodedChannel.readPairs g regions line n) >>= fun xs => pure (laid v line xs) := by
  induction n generalizing line v with
  | zero => rw [readPairs?, CodedChannel.readPairs, reading_pure, pure_bind, laid_nil]
  | succ n ih =>
    obtain ⟨htable, hlt⟩ := tableAt?_eq hg regions line
    rw [readPairs?, htable, need_some, pure_bind, readPair?_eq hlt, CodedChannel.readPairs, reading_bind, bind_assoc]
    refine bind_congr fun pair => ?_
    rw [write?_laid (by omega), need_some, pure_bind, write?_laid (by omega), need_some, pure_bind, ih (by omega)]
    obtain ⟨x, y⟩ := pair
    dsimp only
    rw [reading_bind, bind_assoc]
    refine bind_congr fun xs => ?_
    rw [reading_pure, pure_bind, laid_cons v line x (y :: xs), laid_cons _ (line + 1) y xs]

def cleared (v : Vector Int lineCount) (line : Nat) : Vector Int lineCount :=
  Vector.ofFn fun i => if i.val < line then v.get i else 0

theorem clear?_eq (h : line ≤ lineCount) : clear? v line = some (cleared v line) :=
  if_pos h

/-- The end of a part whose quadruples from a line on are known. -/
def settled (stop line : Nat) (v : Vector Int lineCount) (quads : List Int) :
    CheckedRead (Vector Int lineCount × Nat) := do
  readingBits (BitRead.moveTo stop)
  return (cleared (laid v line quads) (line + quads.length), line + quads.length)

theorem settled_append (stop line : Nat) (v : Vector Int lineCount) (h : quad.length = 4) (quads : List Int) :
    settled stop (line + 4) (laid v line quad) quads = settled stop line v (quad ++ quads) := by
  rw [settled, settled, ← h, laid_laid, length_append, Nat.add_assoc]

section

variable {tableB : Bool} {stop first line : Nat} {v : Vector Int lineCount}

theorem readQuads?_stop (h : stop ≤ r.pos) : readQuads? tableB stop line v r = some (.ok (line, v), r) := by
  rw [readQuads?]
  by_cases hroom : line + 4 ≤ lineCount
  · rw [if_pos hroom, run_position_bind, if_pos h]
    rfl
  · rw [if_neg hroom]
    rfl

theorem settle?_keep (hline : line ≤ lineCount) (h : line = first ∨ r.pos ≤ stop) :
    settle? stop first line v r = settled stop line v [] r := by
  have hkeep : ¬ (stop < r.pos ∧ first < line) := by omega
  rw [settle?, run_position_bind, if_neg hkeep, clear?_eq hline, need_some, pure_bind, settled, laid_nil]
  rfl

theorem settle?_back (hline : line + 4 ≤ lineCount) (hpast : stop < r.pos) (hfirst : first ≤ line) (quad : List Int) :
    settle? stop first (line + 4) (laid v line quad) r = settled stop line v [] r := by
  have hback : stop < r.pos ∧ first < line + 4 := ⟨hpast, by omega⟩
  have hcleared : cleared (laid v line quad) line = cleared v line := by
    refine Vector.ext fun i hi => ?_
    simp only [cleared, laid, Vector.getElem_ofFn, Vector.get_ofFn]
    by_cases hlt : i < line
    · rw [if_pos hlt, if_pos hlt, if_neg (Nat.not_le.mpr hlt)]
    · rw [if_neg hlt, if_neg hlt]
  rw [settle?, run_position_bind, if_pos hback, Nat.add_sub_cancel, clear?_eq (by omega), need_some, pure_bind, hcleared,
    settled, laid_nil]
  rfl

/-- **Quadruples are read within the lines**, and the last of them is taken back just if it goes beyond the part. -/
theorem readQuads?_eq (hn : (lineCount - line) / 4 = n) (hline : line ≤ lineCount) (hfirst : first ≤ line)
    (hr : line = first ∨ r.pos ≤ stop) :
    (readQuads? tableB stop line v >>= fun quads => settle? stop first quads.1 quads.2) r =
      (reading (CodedChannel.readQuads tableB stop n) >>= settled stop line v) r := by
  induction n generalizing line v r with
  | zero =>
    have hroom : ¬ line + 4 ≤ lineCount := by omega
    rw [readQuads?, if_neg hroom, pure_bind, settle?_keep hline hr, CodedChannel.readQuads, reading_pure, pure_bind]
  | succ n ih =>
    have hroom : line + 4 ≤ lineCount := by omega
    rw [CodedChannel.readQuads, reading_bind, reading_lift, bind_assoc, run_position_bind]
    by_cases hstop : stop ≤ r.pos
    · rw [run_bind_ok (readQuads?_stop hstop), if_pos hstop, reading_pure, pure_bind, settle?_keep hline hr]
    · rw [if_neg hstop, readQuads?, if_pos hroom, bind_assoc, run_position_bind, if_neg hstop, reading_bind,
        bind_assoc, bind_assoc]
      rcases hquad : readQuad tableB r with ⟨e | quad, r'⟩
      · rw [run_reading_error hquad, run_reading_error hquad]
      · have hlength : quad.length = 4 := length_readQuad (by rw [hquad])
        rw [run_reading_ok hquad, run_reading_ok hquad, writes?_zip hlength hroom, need_some, pure_bind, reading_bind,
          reading_lift, bind_assoc, run_position_bind]
        by_cases hpast : stop < r'.pos
        · rw [run_bind_ok (readQuads?_stop hpast.le), if_pos hpast, reading_pure, pure_bind,
            settle?_back hroom hpast hfirst]
        · rw [if_neg hpast, reading_bind, bind_assoc, ih (by omega) hroom (by omega) (.inr (by omega))]
          refine congrFun (bind_congr fun quads => ?_) r'
          rw [reading_pure, pure_bind, settled_append stop line v hlength]

end

/-- What is written from the first line on, with zeros behind it, is what was read. -/
theorem cleared_laid (xs : List Int) :
    cleared (laid (Vector.replicate lineCount 0) 0 xs) xs.length = padded xs.toArray := by
  refine Vector.ext fun i hi => ?_
  simp only [cleared, laid, padded, Vector.getElem_ofFn, Vector.get_ofFn, getD_toArray]
  rw [if_pos (Nat.zero_le _), Nat.sub_zero]
  by_cases hlt : i < xs.length
  · rw [if_pos hlt, getD_eq_getElem _ _ hlt, getD_eq_getElem _ _ hlt]
  · rw [if_neg hlt, getD_eq_default _ _ (Nat.le_of_not_lt hlt)]

/-- **The lines of a part are written within the granule.** -/
theorem readLines?_eq (hg : g.Valid) [bands.Regular] (start : Nat) :
    readLines? g bands start =
      reading (CodedChannel.readLines g bands start) >>= fun p => pure (padded p.1, p.2) := by
  have hbig : 2 * g.bigValues ≤ lineCount := by
    have := hg.bigValues
    simp only [maxBigValues, lineCount] at *
    omega
  rw [readLines?, CodedChannel.readLines]
  by_cases hlength : g.length = 0
  · have hempty := cleared_laid []
    rw [laid_nil] at hempty
    rw [if_pos hlength, if_pos hlength, clear?_eq (Nat.zero_le _), need_some, pure_bind, reading_pure, pure_bind]
    exact congrArg (fun v => pure (v, 0)) hempty
  · rw [if_neg hlength, if_neg hlength, regions?_eq, need_some, pure_bind, readPairs?_eq hg _ (by omega), bind_assoc,
      reading_bind, bind_assoc]
    refine reading_congr (·.length = 2 * g.bigValues) (fun r xs hxs => length_readPairs hxs) fun pairs hpairs => ?_
    have hquads : (readQuads? g.quadTableB (start + g.length) (2 * g.bigValues)
        (laid (Vector.replicate lineCount 0) 0 pairs) >>= fun quads => settle? (start + g.length) (2 * g.bigValues) quads.1 quads.2) =
        reading (CodedChannel.readQuads g.quadTableB (start + g.length) ((lineCount - 2 * g.bigValues) / 4)) >>=
          settled (start + g.length) (2 * g.bigValues) (laid (Vector.replicate lineCount 0) 0 pairs) :=
      funext fun r => readQuads?_eq rfl hbig (Nat.le_refl _) (.inl rfl)
    rw [pure_bind, hquads, reading_bind, bind_assoc]
    refine bind_congr fun quads => ?_
    rw [settled, reading_bind, reading_lift, bind_assoc]
    refine bind_congr fun _ => ?_
    have hlaid := laid_laid (Vector.replicate lineCount (0 : Int)) 0 pairs quads
    rw [Nat.zero_add] at hlaid
    rw [← hpairs, hlaid, ← length_append, cleared_laid, reading_pure, pure_bind]

/-- The lines of a coded granule end where its zeros begin, within the granule. -/
structure CodedChannel.Fits (c : CodedChannel) : Prop where
  lines : c.lines.size ≤ c.zeroFrom
  zeroFrom : c.zeroFrom ≤ lineCount

theorem size_readLines (hg : g.Valid) (h : (CodedChannel.readLines g bands start r).1 = .ok p) :
    p.1.size ≤ p.2 ∧ p.2 ≤ lineCount := by
  have hbig := hg.bigValues
  rw [CodedChannel.readLines] at h
  split at h
  · cases h
    exact ⟨Nat.le_refl _, Nat.zero_le _⟩
  · obtain ⟨pairs, hpairs, h⟩ := of_bind_ok h
    obtain ⟨quads, hquads, h⟩ := of_bind_ok h
    obtain ⟨_, -, h⟩ := of_bind_ok h
    have hpairs := length_readPairs hpairs
    obtain ⟨k, _, hcounted, -, hquads⟩ := CodedChannel.quadsCounted_readQuads hquads
    have hroom := hcounted.le
    cases h
    rw [size_toArray, length_append]
    simp only [maxBigValues, lineCount] at *
    omega

/-! ## Main data -/

/-- A granule of a channel in tables of fixed sizes. -/
structure CheckedChannel where
  scale : ScaleTables := {}
  lines : Vector Int lineCount := Vector.replicate lineCount 0
  zeroFrom : Nat := 0

def CodedChannel.checked (c : CodedChannel) : CheckedChannel := ⟨c.scale.tables, padded c.lines, c.zeroFrom⟩

def readChannel? (g : GranuleInfo) (bands : Bands) (reuse : List Bool) (previous : Option ScaleTables) :
    CheckedRead CheckedChannel := do
  let start ← readingBits BitRead.position
  let scale ← readScale? g reuse previous
  let lines ← readLines? g bands start
  return ⟨scale, lines.1, lines.2⟩

def earlierScale? (earlier : Option (List CheckedChannel)) (channel : Nat) : Option (Option ScaleTables) :=
  match earlier with
  | none => some none
  | some cs => cs[channel]?.map fun c => some c.scale

/-- The channels of a granule from an index on. `earlier` are those of the first granule when this is the second. -/
def readGranule? (bands : Bands) (side : SideInfo) (granule : Nat) (earlier : Option (List CheckedChannel)) :
    Nat → Nat → CheckedRead (List CheckedChannel)
  | _, 0 => pure []
  | channel, n + 1 => do
    let infos ← need side.granules[granule]?
    let g ← need infos[channel]?
    let reuse ← need side.reuse[channel]?
    let previous ← need (earlierScale? earlier channel)
    let c ← readChannel? g bands reuse previous
    let cs ← readGranule? bands side granule earlier (channel + 1) n
    return c :: cs

def mainData? (h : Header) (side : SideInfo) (data : Array UInt8) :
    Option (Except AudioError (List (List CheckedChannel))) :=
  let read : CheckedRead (List (List CheckedChannel)) := do
    let first ← readGranule? (Bands.of h.rate) side 0 none 0 h.channels
    let second ← readGranule? (Bands.of h.rate) side 1 (some first) 0 h.channels
    return [first, second]
  (read { data }).map Prod.fst

theorem readChannel?_eq (hg : g.Valid) [bands.Regular] (hreuse : 4 ≤ reuse.length) (previous : Option Scalefactors) :
    readChannel? g bands reuse (previous.map Scalefactors.tables) =
      reading (CodedChannel.read g bands reuse previous) >>= fun c => pure c.checked := by
  rw [readChannel?, CodedChannel.read, reading_bind, reading_lift, bind_assoc]
  refine bind_congr fun start => ?_
  rw [readScale?_eq hg.scaleLengths hreuse, reading_bind, reading_lift, bind_assoc, bind_assoc]
  refine bind_congr fun scale => ?_
  rw [pure_bind, readLines?_eq hg, reading_bind, bind_assoc, bind_assoc]
  rfl

/-- The side information has two granules of so many channels, with flags for the four groups of each. -/
structure SideInfo.Valid (side : SideInfo) (channels : Nat) : Prop where
  granules : side.granules.length = 2
  infos : ∀ gs ∈ side.granules, gs.length = channels
  valid : ∀ gs ∈ side.granules, ∀ g ∈ gs, g.Valid
  reuse : side.reuse.length = channels
  flags : ∀ flags ∈ side.reuse, flags.length = 4

theorem readGranule?_eq (hside : side.Valid channels) (bands : Bands) [bands.Regular]
    (hgs : side.granules[granule]? = some gs) (earlier : Option CodedGranule)
    (hearlier : ∀ es ∈ earlier, es.length = channels) (hn : channel + n = channels) :
    readGranule? bands side granule (earlier.map (·.map CodedChannel.checked)) channel n =
      reading (CodedGranule.read bands (gs.drop channel) (side.reuse.drop channel)
        ((earlier.getD []).drop channel)) >>= fun cs => pure (cs.map CodedChannel.checked) := by
  have hmem := mem_of_getElem? hgs
  have hlength := hside.infos gs hmem
  induction n generalizing channel with
  | zero =>
    rw [readGranule?, drop_eq_nil_of_le (by omega), CodedGranule.read, reading_pure, pure_bind]
    rfl
  | succ n ih =>
    have hgs' : channel < gs.length := by omega
    have hreuse : channel < side.reuse.length := by
      rw [hside.reuse]
      omega
    have hflags : 4 ≤ side.reuse[channel].length := (hside.flags _ (getElem_mem hreuse)).ge
    have hvalid := hside.valid gs hmem _ (getElem_mem hgs')
    have hprevious : earlierScale? (earlier.map (·.map CodedChannel.checked)) channel =
        some ((((earlier.getD []).drop channel).head?.map CodedChannel.scale).map Scalefactors.tables) := by
      cases earlier with
      | none => simp [earlierScale?]
      | some es =>
        have hes : channel < es.length := by
          rw [hearlier es rfl]
          omega
        simp [earlierScale?, List.getElem?_eq_getElem hes, CodedChannel.checked]
    rw [readGranule?, hgs, need_some, pure_bind, List.getElem?_eq_getElem hgs', need_some, pure_bind,
      List.getElem?_eq_getElem hreuse, need_some, pure_bind, hprevious, need_some, pure_bind, ih (by omega),
      drop_eq_getElem_cons hgs', drop_eq_getElem_cons hreuse, CodedGranule.read, reading_bind, bind_assoc,
      headD_cons, tail_cons, tail_drop]
    rw [readChannel?_eq hvalid hflags, bind_assoc]
    refine bind_congr fun c => ?_
    rw [pure_bind, bind_assoc, reading_bind, bind_assoc]
    rfl

theorem fits_readGranule (hgs : ∀ g ∈ gs, g.Valid) {reuse : List (List Bool)}
    (h : (CodedGranule.read bands gs reuse earlier r).1 = .ok cs) : cs.length = gs.length ∧ ∀ c ∈ cs, c.Fits := by
  induction gs generalizing reuse earlier r cs with
  | nil =>
    cases h
    exact ⟨rfl, forall_mem_nil _⟩
  | cons g gs ih =>
    rw [CodedGranule.read] at h
    obtain ⟨c, hc, h⟩ := of_bind_ok h
    obtain ⟨cs', hcs, h⟩ := of_bind_ok h
    obtain ⟨hlength, hlater⟩ := ih (fun g hg => hgs g (mem_cons_of_mem _ hg)) hcs
    cases h
    rw [CodedChannel.read] at hc
    obtain ⟨start, -, hc⟩ := of_bind_ok hc
    obtain ⟨scale, -, hc⟩ := of_bind_ok hc
    obtain ⟨lines, hlines, hc⟩ := of_bind_ok hc
    obtain ⟨hsize, hzero⟩ := size_readLines (hgs g mem_cons_self) hlines
    cases hc
    exact ⟨congrArg Nat.succ hlength, forall_mem_cons.mpr ⟨⟨hsize, hzero⟩, hlater⟩⟩

theorem SideInfo.Valid.granule (hside : side.Valid channels) (hk : k < 2) :
    side.granules[k]? = some (side.granules.getD k []) := list_getElem? (hk.trans_eq hside.granules.symm) _

/-- Every granule that is read has its channels, and in each the zeros begin within the lines. -/
theorem SideInfo.Valid.fits (hside : side.Valid channels) (hk : k < 2) {reuse : List (List Bool)}
    (h : (CodedGranule.read bands (side.granules.getD k []) reuse earlier r).1 = .ok cs) :
    cs.length = channels ∧ ∀ c ∈ cs, c.Fits := by
  have hmem := mem_of_getElem? (hside.granule hk)
  obtain ⟨hlength, hfits⟩ := fits_readGranule (hside.valid _ hmem) h
  exact ⟨hlength.trans (hside.infos _ hmem), hfits⟩

/-- The granules in tables of fixed sizes. -/
def checkedGranules (coded : List CodedGranule) : List (List CheckedChannel) := coded.map (·.map CodedChannel.checked)

/-- **Main data is read within its tables.** -/
theorem mainData?_eq (hside : side.Valid h.channels) (data : Array UInt8) :
    mainData? h side data = some ((mainData h side data).map checkedGranules) := by
  have hread : (do
      let first ← readGranule? (Bands.of h.rate) side 0 none 0 h.channels
      let second ← readGranule? (Bands.of h.rate) side 1 (some first) 0 h.channels
      return [first, second]) =
      reading (readMainData (Bands.of h.rate) side) >>= fun coded => pure (checkedGranules coded) := by
    have hfirst := readGranule?_eq hside (.of h.rate) (hside.granule two_pos) none (by simp) (Nat.zero_add h.channels)
    rw [Option.map_none] at hfirst
    rw [hfirst, readMainData, reading_bind, bind_assoc, bind_assoc]
    refine reading_congr (·.length = h.channels) (fun r cs hcs => (hside.fits two_pos hcs).1) fun first hlength => ?_
    have hsecond := readGranule?_eq hside (.of h.rate) (hside.granule one_lt_two) (some first) (by simpa using hlength)
      (Nat.zero_add h.channels)
    rw [Option.map_some] at hsecond
    rw [pure_bind, hsecond, reading_bind, bind_assoc, bind_assoc]
    rfl
  rw [mainData?, hread, mainData]
  rcases hrun : readMainData (Bands.of h.rate) side { data } with ⟨e | coded, r⟩
  · rw [run_reading_error hrun]
    rfl
  · rw [run_reading_ok hrun]
    rfl

/-- **Every granule has its channels, and in each the zeros begin within the lines.** -/
theorem fits_mainData (hside : side.Valid h.channels) {data : Array UInt8} {coded : List CodedGranule}
    (hok : mainData h side data = .ok coded) : ∀ cs ∈ coded, cs.length = h.channels ∧ ∀ c ∈ cs, c.Fits := by
  rw [mainData, readMainData] at hok
  obtain ⟨first, hfirst, hok⟩ := of_bind_ok hok
  obtain ⟨second, hsecond, hok⟩ := of_bind_ok hok
  cases hok
  intro cs hcs
  rcases mem_cons.mp hcs with rfl | hcs
  · exact hside.fits two_pos hfirst
  · rw [mem_singleton.mp hcs]
    exact hside.fits one_lt_two hsecond

end GameMedia.Audio
