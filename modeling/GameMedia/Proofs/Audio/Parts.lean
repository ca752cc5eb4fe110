import GameMedia.Proofs.Audio.Carry

/-!
# Parts of main data

Main data has a part for each granule and channel, as long as the side information says. Its codes may stop short of
its end or go beyond it; the next part begins there all the same. Only a part that is said to be empty is not left this
way: the scalefactors that are read for it push the later parts back.
-/

namespace GameMedia.Audio

open List Huffman

variable {α β : Type} {stop n m : Nat} {r r' : BitReader}

/-! ## Readers abreast -/

/-- Two readers are at one position, and what is before them is the same up to `stop`. -/
structure Abreast (stop : Nat) (r r' : BitReader) : Prop where
  pos : r.pos = r'.pos
  le : r.pos ≤ stop
  bits : ∀ q, r.pos ≤ q → q < stop → BitReader.bitAt r.data q = BitReader.bitAt r'.data q

/-- A read goes on in the same data. Readers that are abreast give the same and stay abreast, or both pass `stop`. -/
structure Keeps (stop : Nat) (x : BitRead α) : Prop where
  onward : ∀ r, (x r).2.data = r.data ∧ r.pos ≤ (x r).2.pos
  same : ∀ r r', Abreast stop r r' →
    (x r).1 = (x r').1 ∧ Abreast stop (x r).2 (x r').2 ∨ stop < (x r).2.pos ∧ stop < (x r').2.pos

abbrev KeepsCode (stop : Nat) (y : CodeRead α) : Prop := @Keeps (Except AudioError α) stop y

/-- A read takes so many bits and depends on them alone. -/
structure Takes (n : Nat) (x : BitRead α) : Prop where
  run : ∀ r, (x r).2 = ⟨r.data, r.pos + n⟩
  same : ∀ r r', (∀ i < n, BitReader.bitAt r.data (r.pos + i) = BitReader.bitAt r'.data (r'.pos + i)) →
    (x r).1 = (x r').1

section

variable {x : BitRead α} {y : CodeRead α} {k : α → CodeRead β}

theorem Huffman.run_bind_congr (h : (y r).1 = (y r').1)
    (hk : ∀ a, (y r).1 = .ok a → (k a (y r).2).1 = (k a (y r').2).1) : ((y >>= k) r).1 = ((y >>= k) r').1 := by
  cases ha : (y r).1 with
  | ok a =>
    rw [run_bind_ok ha, run_bind_ok (h ▸ ha)]
    exact hk a ha
  | error e =>
    have herror {r : BitReader} (h : (y r).1 = .error e) : ((y >>= k) r).1 = .error e := by
      simp only [bind, ExceptT.bind, ExceptT.mk, StateT.bind]
      rw [show y r = (.error e, (y r).2) from Prod.ext h rfl]
      rfl
    rw [herror ha, herror (h ▸ ha)]

theorem takes_pure (a : α) : Takes 0 (pure a : BitRead α) := ⟨fun _ => rfl, fun _ _ _ => rfl⟩

theorem takes_bit : Takes 1 BitRead.bit := ⟨fun _ => rfl, fun _ _ h => h 0 Nat.one_pos⟩

theorem takes_bits : Takes n (BitRead.bits n) := by
  refine ⟨fun _ => rfl, fun r r' h => ?_⟩
  show BitReader.bitsAt r.data r.pos n = BitReader.bitsAt r'.data r'.pos n
  induction n with
  | zero => rfl
  | succ n ih => rw [BitReader.bitsAt, BitReader.bitsAt, ih fun i hi => h i (by omega), h n n.lt_succ_self]

theorem Takes.bind (hx : Takes n x) (hf : ∀ a, Takes m (f a)) : Takes (n + m) (x >>= f) := by
  refine ⟨fun r => ?_, fun r r' h => ?_⟩
  · show (f (x r).1 (x r).2).2 = _
    rw [(hf _).run, hx.run, Nat.add_assoc]
  · show (f (x r).1 (x r).2).1 = (f (x r').1 (x r').2).1
    rw [hx.same r r' fun i hi => h i (by omega), hx.run, hx.run]
    refine (hf _).same _ _ fun i hi => ?_
    have := h (n + i) (by omega)
    rwa [← Nat.add_assoc, ← Nat.add_assoc] at this

theorem Takes.times (hx : Takes n x) : Takes (m * n) (BitRead.times x m) := by
  induction m with
  | zero => rw [Nat.zero_mul]; exact takes_pure _
  | succ m ih =>
    rw [Nat.succ_mul, Nat.add_comm]
    exact hx.bind fun a => ih.bind fun as => takes_pure _

theorem Takes.keeps (hx : Takes n x) : Keeps stop x := by
  refine ⟨fun r => ?_, fun r r' h => ?_⟩
  · rw [hx.run]
    exact ⟨rfl, Nat.le_add_right _ _⟩
  · obtain ⟨hpos, -, hbits⟩ := h
    rw [hx.run, hx.run]
    by_cases hle : r.pos + n ≤ stop
    · refine .inl ⟨hx.same r r' fun i hi => ?_, congrArg (· + n) hpos, hle, fun q hq => ?_⟩
      · rw [← hpos]
        exact hbits _ (by omega) (by omega)
      · exact hbits q (Nat.le_of_add_right_le hq)
    · exact .inr ⟨not_le.mp hle, hpos ▸ not_le.mp hle⟩

theorem keeps_pure (a : α) : Keeps stop (pure a : BitRead α) := (takes_pure a).keeps

theorem keeps_position : Keeps stop BitRead.position := ⟨fun _ => ⟨rfl, le_rfl⟩, fun _ _ h => .inl ⟨h.pos, h⟩⟩

theorem Keeps.bind (hx : Keeps stop x) (hf : ∀ a, Keeps stop (f a)) : Keeps stop (x >>= f) := by
  have honward (r : BitReader) := (hf (x r).1).onward (x r).2
  refine ⟨fun r => ⟨(honward r).1.trans (hx.onward r).1, (hx.onward r).2.trans (honward r).2⟩, fun r r' h => ?_⟩
  rcases hx.same r r' h with ⟨hsame, h⟩ | ⟨hlt, hlt'⟩
  · have hrun : (x >>= f) r' = f (x r).1 (x r').2 := by rw [hsame]; rfl
    rw [hrun]
    exact (hf (x r).1).same _ _ h
  · exact .inr ⟨hlt.trans_le (honward r).2, hlt'.trans_le (honward r').2⟩

theorem KeepsCode.bind (hy : KeepsCode stop y) (hk : ∀ a, KeepsCode stop (k a)) : KeepsCode stop (y >>= k) := by
  refine Keeps.bind (f := ExceptT.bindCont k) hy fun e => ?_
  cases e with
  | error e => exact keeps_pure _
  | ok a => exact hk a

theorem Keeps.lift (hx : Keeps stop x) : KeepsCode stop (liftM x : CodeRead α) := hx.bind fun _ => keeps_pure _

end

/-! ## What the reads do -/

theorem Huffman.Tree.keeps_read (t : Tree) : Keeps stop t.read := by
  induction t with
  | empty => exact keeps_pure _
  | leaf v => exact keeps_pure _
  | node l r ihl ihr =>
    refine takes_bit.keeps.bind fun b => ?_
    cases b with
    | false => exact ihl
    | true => exact ihr

theorem Huffman.keeps_signed (v : Nat) : Keeps stop (signed v) := by
  unfold signed
  split
  · exact keeps_pure _
  · refine takes_bit.keeps.bind fun b => ?_
    cases b with
    | false => exact keeps_pure _
    | true => exact keeps_pure _

theorem Huffman.keeps_extended (extra v : Nat) : Keeps stop (extended extra v) := by
  unfold extended
  split
  · exact takes_bits.keeps.bind fun _ => keeps_signed _
  · exact keeps_signed _

theorem Huffman.keeps_readPair (table : Nat) : KeepsCode stop (readPair table) := by
  unfold readPair
  split
  · exact keeps_pure _
  · refine (Tree.keeps_read _).lift.bind fun v => ?_
    cases v with
    | none => exact keeps_pure _
    | some v =>
      exact (keeps_extended _ _).lift.bind fun _ => (keeps_extended _ _).lift.bind fun _ => keeps_pure _

theorem Huffman.keeps_quadValues (v : Nat) : Keeps stop (quadValues v) :=
  (keeps_signed _).bind fun _ => (keeps_signed _).bind fun _ => (keeps_signed _).bind fun _ =>
    (keeps_signed _).bind fun _ => keeps_pure _

theorem Huffman.keeps_readQuad (tableB : Bool) : KeepsCode stop (readQuad tableB) := by
  refine (Tree.keeps_read _).lift.bind fun v => ?_
  cases v with
  | none => exact keeps_pure _
  | some v => exact (keeps_quadValues v).lift

theorem CodedChannel.keeps_readPairs (stop : Nat) (g : GranuleInfo) (regions : Nat × Nat) (line : Nat) :
    KeepsCode stop (readPairs g regions line n) := by
  induction n generalizing line with
  | zero => exact keeps_pure _
  | succ n ih => exact (keeps_readPair _).bind fun _ => (ih _).bind fun _ => keeps_pure _

theorem CodedChannel.keeps_readQuads (stop limit : Nat) (tableB : Bool) : KeepsCode stop (readQuads tableB limit n) := by
  induction n with
  | zero => exact keeps_pure _
  | succ n ih =>
    refine keeps_position.lift.bind fun pos => ?_
    split
    · exact keeps_pure _
    refine (keeps_readQuad tableB).bind fun quad => keeps_position.lift.bind fun pos => ?_
    split
    · exact keeps_pure _
    · exact ih.bind fun _ => keeps_pure _

/-- Quadruples that go beyond the part do not count, so that it does not matter what they are. -/
theorem CodedChannel.readQuads_same (h : Abreast stop r r') :
    (readQuads tableB stop n r).1 = (readQuads tableB stop n r').1 := by
  induction n generalizing r r' with
  | zero => rfl
  | succ n ih =>
    rw [readQuads, run_position_bind, run_position_bind, h.pos]
    split
    · rfl
    rcases (keeps_readQuad tableB).same r r' h with ⟨hsame, h⟩ | ⟨hlt, hlt'⟩
    · refine run_bind_congr hsame fun quad _ => ?_
      rw [run_position_bind, run_position_bind, if_neg h.le.not_gt, if_neg (h.pos ▸ h.le).not_gt]
      exact run_bind_congr (ih h) fun _ _ => rfl
    · obtain ⟨quad, hquad⟩ := succeeds_readQuad tableB r
      obtain ⟨quad', hquad'⟩ := succeeds_readQuad tableB r'
      rw [run_bind_ok hquad, run_bind_ok hquad', run_position_bind, run_position_bind, if_pos hlt, if_pos hlt']
      rfl

/-- The bits of the scalefactors of the remaining groups. Those that a second granule reuses have none. -/
def Scalefactors.groupsSpan (lengths : Nat × Nat) (second : Bool) : List (Nat × Nat × Bool) → List Bool → Nat
  | [], _ => 0
  | (_, count, isLower) :: gs, reuse =>
    (if second && reuse.headD false then 0 else count * if isLower then lengths.1 else lengths.2) +
      groupsSpan lengths second gs reuse.tail

/-- The bits of the scalefactors of a part. -/
def Scalefactors.span (g : GranuleInfo) (reuse : List Bool) (second : Bool) : Nat :=
  let (lower, upper) := lengths.getD g.scaleLengths (0, 0)
  if g.isShort then if g.mixed then 8 * lower + (9 * lower + 18 * upper) else 18 * lower + 18 * upper
  else groupsSpan (lower, upper) second groups reuse

theorem Scalefactors.takes_readGroups (lengths : Nat × Nat) (previous : Option Scalefactors)
    (gs : List (Nat × Nat × Bool)) (reuse : List Bool) :
    Takes (groupsSpan lengths previous.isSome gs reuse) (readGroups lengths previous gs reuse) := by
  induction gs generalizing reuse with
  | nil => exact takes_pure _
  | cons group gs ih =>
    have hrest (here : List Nat) := (ih reuse.tail).bind fun rest => takes_pure (here ++ rest)
    have hread := (takes_bits (n := if group.2.2 then lengths.1 else lengths.2)).times (m := group.2.1) |>.bind hrest
    rcases previous with - | p
    · exact hread
    · rcases reuse with - | ⟨- | -, reuse⟩
      · exact hread
      · exact hread
      · exact (takes_pure _).bind hrest

theorem Scalefactors.takes_read (g : GranuleInfo) (reuse : List Bool) (previous : Option Scalefactors) :
    Takes (span g reuse previous.isSome) (read g reuse previous) := by
  unfold read readShort readLong span
  obtain ⟨lower, upper⟩ := lengths.getD g.scaleLengths (0, 0)
  dsimp only
  split
  · split
    · exact takes_bits.times.bind fun _ => takes_bits.times.bind fun _ => takes_bits.times.bind fun _ => takes_pure _
    · exact takes_bits.times.bind fun _ => takes_bits.times.bind fun _ => takes_pure _
  · exact (takes_readGroups _ previous groups reuse).bind fun _ => takes_pure _

/-! ## Where a part ends -/

/-- The bits that are read as a part: as many as it is said to have, but the scalefactors of an empty one. -/
def GranuleInfo.span (g : GranuleInfo) (reuse : List Bool) (second : Bool) : Nat :=
  if g.length = 0 then Scalefactors.span g reuse second else g.length

namespace CodedChannel

variable {g : GranuleInfo} {bands : Bands} {reuse : List Bool} {previous : Option Scalefactors} {c : CodedChannel}

theorem readLines_run {start : Nat} {lines : Array Int × Nat} (h : (readLines g bands start r).1 = .ok lines) :
    (readLines g bands start r).2 = if g.length = 0 then r else ⟨r.data, start + g.length⟩ := by
  unfold readLines at h ⊢
  by_cases hlen : g.length = 0
  · rw [if_pos hlen, if_pos hlen]
    rfl
  · rw [if_neg hlen] at h
    obtain ⟨pairs, hpairs, h⟩ := of_bind_ok h
    obtain ⟨quads, hquads, -⟩ := of_bind_ok h
    rw [if_neg hlen, if_neg hlen, run_bind_ok hpairs, run_bind_ok hquads]
    exact congrArg (BitReader.mk · _) <|
      ((keeps_readQuads start _ _).onward _).1.trans ((keeps_readPairs start g _ _).onward r).1

/-- A part that can be read ends where it is said to, wherever its codes end. -/
theorem read_run (h : (read g bands reuse previous r).1 = .ok c) :
    (read g bands reuse previous r).2 = ⟨r.data, r.pos + g.span reuse previous.isSome⟩ := by
  unfold read at h ⊢
  rw [run_position_bind, run_lift_bind, (Scalefactors.takes_read g reuse previous).run] at h ⊢
  obtain ⟨lines, hlines, -⟩ := of_bind_ok h
  rw [run_bind_ok hlines, GranuleInfo.span]
  refine (readLines_run hlines).trans ?_
  split <;> rfl

def pairsEnd (g : GranuleInfo) (bands : Bands) (reuse : List Bool) (previous : Option Scalefactors) (r : BitReader) :
    Nat :=
  (readPairs g (regions g bands) 0 g.bigValues (Scalefactors.read g reuse previous r).2).2.pos

/-- A part whose pairs end in it depends on its own bits alone. -/
theorem read_same (hpairs : g.length = 0 ∨ pairsEnd g bands reuse previous r ≤ r.pos + g.length)
    (h : Abreast (r.pos + g.span reuse previous.isSome) r r') :
    (read g bands reuse previous r).1 = (read g bands reuse previous r').1 := by
  have hscale := Scalefactors.takes_read g reuse previous
  have hpairs' := (keeps_readPairs (n := g.bigValues) r.pos g (regions g bands) 0).onward
    (Scalefactors.read g reuse previous r).2
  unfold read
  rw [run_position_bind, run_position_bind, run_lift_bind, run_lift_bind, ← h.pos]
  unfold GranuleInfo.span at h
  by_cases hlen : g.length = 0
  · rw [if_pos hlen] at h
    rcases hscale.keeps.same r r' h with ⟨hsame, -⟩ | ⟨hlt, -⟩
    · rw [hsame, readLines, if_pos hlen]
      rfl
    · rw [hscale.run] at hlt
      exact absurd hlt (lt_irrefl _)
  · rw [if_neg hlen] at h
    have hend := hpairs.resolve_left hlen
    rcases hscale.keeps.same r r' h with ⟨hsame, h⟩ | ⟨hlt, -⟩
    · rw [hsame, readLines, if_neg hlen]
      refine run_bind_congr ?_ fun _ _ => rfl
      rcases (keeps_readPairs _ g (regions g bands) 0).same _ _ h with ⟨hsame, h⟩ | ⟨hlt, -⟩
      · exact run_bind_congr hsame fun _ _ => run_bind_congr (readQuads_same h) fun _ _ => rfl
      · exact absurd hend hlt.not_ge
    · exact absurd (hpairs'.2.trans hend) hlt.not_ge

end CodedChannel

/-! ## The parts of a frame -/

/-- The bits that are read as the parts of a granule, where `earlier` channels have a first granule. -/
def CodedGranule.spans : List GranuleInfo → List (List Bool) → Nat → List Nat
  | [], _, _ => []
  | g :: gs, reuse, earlier => g.span (reuse.headD []) (0 < earlier) :: spans gs reuse.tail (earlier - 1)

namespace SideInfo

def parts (side : SideInfo) : List GranuleInfo := side.granules.getD 0 [] ++ side.granules.getD 1 []

/-- The bits that are read as each part. -/
def spans (side : SideInfo) : List Nat :=
  CodedGranule.spans (side.granules.getD 0 []) side.reuse 0 ++
    CodedGranule.spans (side.granules.getD 1 []) side.reuse (side.granules.getD 0 []).length

/-- The bits that each part is said to have. -/
def lengths (side : SideInfo) : List Nat := side.parts.map GranuleInfo.length

end SideInfo

/-- A part is what is read at its start, from its own bits alone if its pairs end in it. -/
structure IsPart (bands : Bands) (data : Array UInt8) (g : GranuleInfo) (reuse : List Bool)
    (previous : Option Scalefactors) (start : Nat) (c : CodedChannel) : Prop where
  read : (CodedChannel.read g bands reuse previous ⟨data, start⟩).1 = .ok c
  own : g.length = 0 ∨ CodedChannel.pairsEnd g bands reuse previous ⟨data, start⟩ ≤ start + g.length →
    ∀ data', (∀ q, start ≤ q → q < start + g.span reuse previous.isSome →
      BitReader.bitAt data q = BitReader.bitAt data' q) →
    (CodedChannel.read g bands reuse previous ⟨data', start⟩).1 = .ok c

theorem IsPart.of_read (h : (CodedChannel.read g bands reuse previous r).1 = .ok c) :
    IsPart bands r.data g reuse previous r.pos c := by
  refine ⟨h, fun hpairs data' hbits => ?_⟩
  have habreast : Abreast _ r ⟨data', r.pos⟩ := ⟨rfl, Nat.le_add_right _ _, hbits⟩
  exact (CodedChannel.read_same hpairs habreast).symm.trans h

theorem CodedGranule.read_parts (h : (read bands gs reuse earlier r).1 = .ok cs) :
    (read bands gs reuse earlier r).2 = ⟨r.data, r.pos + (spans gs reuse earlier.length).sum⟩ ∧
      cs.length = gs.length ∧
      ∀ i g, gs[i]? = some g → ∃ c, cs[i]? = some c ∧
        IsPart bands r.data g (reuse.getD i []) (earlier[i]?.map CodedChannel.scale)
          (r.pos + ((spans gs reuse earlier.length).take i).sum) c := by
  induction gs generalizing r reuse earlier cs with
  | nil =>
    obtain rfl := Except.ok.inj h
    exact ⟨rfl, rfl, fun i g hg => absurd hg (by simp)⟩
  | cons g gs ih =>
    obtain ⟨c, hc, h⟩ := of_bind_ok h
    obtain ⟨cs, hcs, h⟩ := of_bind_ok h
    obtain rfl := Except.ok.inj h
    have hsecond : (earlier.head?.map CodedChannel.scale).isSome = decide (0 < earlier.length) := by cases earlier <;> rfl
    have hrun := CodedChannel.read_run hc
    obtain ⟨hend, hlength, hparts⟩ := ih hcs
    rw [hrun, hsecond, length_tail] at hend hparts
    refine ⟨?_, congrArg (· + 1) hlength, fun i g' hg => ?_⟩
    · rw [read, run_bind_ok hc, run_bind_ok hcs, spans, sum_cons, ← Nat.add_assoc, hrun, hsecond]
      exact hend
    · cases i with
      | zero =>
        obtain rfl := Option.some.inj hg
        refine ⟨c, rfl, ?_⟩
        have hpart := IsPart.of_read hc
        rw [head?_eq_getElem?] at hpart
        cases reuse <;> exact hpart
      | succ i =>
        obtain ⟨c', hc', hpart⟩ := hparts i g' hg
        refine ⟨c', hc', ?_⟩
        rw [spans, take_succ_cons, sum_cons, ← Nat.add_assoc]
        rw [getElem?_tail] at hpart
        cases reuse <;> exact hpart

theorem CodedGranule.spans_lengths (gs : List GranuleInfo) (reuse : List (List Bool)) (earlier : Nat) :
    Forall₂ (fun s l => l ≠ 0 → s = l) (spans gs reuse earlier) (gs.map GranuleInfo.length) := by
  induction gs generalizing reuse earlier with
  | nil => exact .nil
  | cons g gs ih => exact .cons (fun h => if_neg h) (ih _ _)

/-- Parts have the lengths they are said to have if the empty ones have no scalefactors. -/
theorem SideInfo.spans_eq_lengths_iff (side : SideInfo) :
    side.spans = side.lengths ↔ ∀ k : Nat, side.lengths[k]? = some 0 → side.spans[k]? = some 0 := by
  have hspans : Forall₂ (fun s l => l ≠ 0 → s = l) side.spans side.lengths := by
    rw [lengths, parts, map_append]
    exact rel_append (CodedGranule.spans_lengths _ _ _) (CodedGranule.spans_lengths _ _ _)
  refine ⟨fun h k hk => h ▸ hk, fun h => ?_⟩
  generalize side.spans = ss, side.lengths = ls at hspans h
  induction hspans with
  | nil => rfl
  | @cons s l ss ls hs _ ih =>
    have hhead : s = l := by
      rcases eq_or_ne l 0 with rfl | hl
      · exact Option.some.inj (h 0 rfl)
      · exact hs hl
    rw [hhead, ih fun k hk => h (k + 1) hk]

/-- The parts of the main data of a frame stand one after the other in the order of the side information. Each begins
where those before it end, and it has the length it is said to have unless it is empty and yet has scalefactors. -/
theorem parts_of_mainData {h : Header} {side : SideInfo} {data : Array UInt8} {coded : List CodedGranule}
    (hok : mainData h side data = .ok coded) :
    ∃ first second, coded = [first, second] ∧
      (∀ i g, (side.granules.getD 0 [])[i]? = some g → ∃ c, first[i]? = some c ∧
        IsPart (.of h.rate) data g (side.reuse.getD i []) none (side.spans.take i).sum c) ∧
      (∀ i g, (side.granules.getD 1 [])[i]? = some g → ∃ c, second[i]? = some c ∧
        IsPart (.of h.rate) data g (side.reuse.getD i []) (first[i]?.map CodedChannel.scale)
          (side.spans.take ((side.granules.getD 0 []).length + i)).sum c) ∧
      (readMainData (.of h.rate) side { data }).2.pos = side.spans.sum ∧
      (side.spans = side.lengths ↔ ∀ k : Nat, side.lengths[k]? = some 0 → side.spans[k]? = some 0) := by
  obtain ⟨first, hfirst, hok⟩ := of_bind_ok hok
  obtain ⟨second, hsecond, hok⟩ := of_bind_ok hok
  obtain rfl := Except.ok.inj hok
  obtain ⟨hend, hlength, hparts⟩ := CodedGranule.read_parts hfirst
  obtain ⟨hend', -, hparts'⟩ := CodedGranule.read_parts hsecond
  rw [hend, hlength] at hend' hparts'
  have hspans : (CodedGranule.spans (side.granules.getD 0 []) side.reuse 0).length = (side.granules.getD 0 []).length :=
    (CodedGranule.spans_lengths _ _ _).length_eq.trans (length_map _)
  refine ⟨first, second, rfl, fun i g hg => ?_, fun i g hg => ?_, ?_, side.spans_eq_lengths_iff⟩
  · rw [SideInfo.spans, take_append_of_le_length (hspans ▸ (List.getElem?_eq_some_iff.mp hg).1.le), ← Nat.zero_add (sum _)]
    exact hparts i g hg
  · rw [SideInfo.spans, ← hspans, take_length_add_append, sum_append, hspans]
    have := hparts' i g hg
    rwa [Nat.zero_add] at this
  · rw [readMainData, run_bind_ok hfirst, run_bind_ok hsecond, SideInfo.spans, sum_append, hend,
      ← Nat.zero_add (sum (CodedGranule.spans _ _ 0))]
    exact congrArg BitReader.pos hend'

/-- A channel whose first granule is empty and yet has the index of the longest scalefactors. -/
def hollowSide : SideInfo :=
  ⟨0, [[false, false, false, false]], [[{ scaleLengths := 15 }], [{ length := 5, bigValues := 1, tables := [1, 0, 0] }]]⟩

def hollowHeader : Header := ⟨128000, .hz44100, false, false, .mono, 0⟩

theorem isOk_mainData_hollowSide : ∃ coded, mainData hollowHeader hollowSide #[0x40] = .ok coded := by
  have h : (mainData hollowHeader hollowSide #[0x40]).isOk := by decide +kernel
  cases hok : mainData hollowHeader hollowSide #[0x40] with
  | ok coded => exact ⟨coded, rfl⟩
  | error e => rw [hok] at h; cases h

theorem hollowSide_parts : (readMainData (.of hollowHeader.rate) hollowSide { data := #[0x40] }).2.pos = 79 := by
  obtain ⟨coded, hok⟩ := isOk_mainData_hollowSide
  obtain ⟨_, _, _, _, _, hend, _⟩ := parts_of_mainData hok
  rw [hend]
  decide +kernel

/-- The second granule is read from behind the scalefactors that the first is not said to have. -/
theorem hollowSide_ne_lengths : ∃ coded, mainData hollowHeader hollowSide #[0x40] = .ok coded ∧
    (readMainData (.of hollowHeader.rate) hollowSide { data := #[0x40] }).2.pos ≠ hollowSide.lengths.sum := by
  obtain ⟨coded, hok⟩ := isOk_mainData_hollowSide
  exact ⟨coded, hok, by decide +kernel⟩

end GameMedia.Audio
