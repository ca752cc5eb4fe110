import GameMedia.Audio.Spectrum
import GameMedia.Proofs.Audio.Bits

/-!
# Codes

What is written in the codes of a table is read back, whatever bits follow. A table leaves no bits unused: whatever they
are, they begin with a code. So main data can always be read.
-/

namespace GameMedia.Audio

open List BitReader Huffman Huffman.Tree

variable {α β : Type} {bs cs : List Bool} {r : BitReader} {x : BitRead α} {y : CodeRead α} {k : α → CodeRead β} {a : α}
  {b : β}

/-! ## Runs of reads -/

namespace Huffman

theorem of_bind_ok (h : ((y >>= k) r).1 = .ok b) : ∃ a, (y r).1 = .ok a ∧ (k a (y r).2).1 = .ok b := by
  simp only [bind, ExceptT.bind, ExceptT.mk, StateT.bind] at h
  rcases hy : y r with ⟨e | a, r'⟩
  · rw [hy] at h
    cases h
  · rw [hy] at h
    exact ⟨a, rfl, h⟩

theorem run_bind_ok (h : (y r).1 = .ok a) : (y >>= k) r = k a (y r).2 := by
  simp only [bind, ExceptT.bind, ExceptT.mk, StateT.bind]
  rcases hy : y r with ⟨e | a', s⟩
  · rw [hy] at h
    cases h
  · rw [hy] at h
    rw [← Except.ok.inj h]
    rfl

theorem run_lift_bind : ((liftM x : CodeRead α) >>= k) r = k (x r).1 (x r).2 := rfl

theorem run_position_bind {k : Nat → CodeRead β} : ((liftM BitRead.position : CodeRead Nat) >>= k) r = k r.pos r := rfl

/-- What `y` reads, so many times. -/
def several (y : CodeRead α) : Nat → CodeRead (List α)
  | 0 => pure []
  | n + 1 => do
    let a ← y
    return a :: (← several y n)

theorem run_several_succ (h : (y r).1 = .ok a) (n : Nat) :
    several y (n + 1) r = ((several y n (y r).2).1.map (a :: ·), (several y n (y r).2).2) := by
  rw [several, run_bind_ok h]
  rcases hrest : several y n (y r).2 with ⟨e | as, s⟩
  · simp only [bind, ExceptT.bind, ExceptT.mk, StateT.bind]
    rw [hrest]
    rfl
  · rw [run_bind_ok (a := as) (by rw [hrest]), hrest]
    rfl

end Huffman

/-! ## Reads of given bits -/

/-- The next bits of a reader. -/
def BitReader.Starts (r : BitReader) : List Bool → Prop
  | [] => True
  | b :: bs => bitAt r.data r.pos = b ∧ Starts ⟨r.data, r.pos + 1⟩ bs

theorem BitReader.starts_append : r.Starts (bs ++ cs) ↔ r.Starts bs ∧ Starts ⟨r.data, r.pos + bs.length⟩ cs := by
  induction bs generalizing r with
  | nil => simp [Starts]
  | cons b bs ih => simp only [cons_append, Starts, ih, and_assoc, length_cons, Nat.add_assoc, Nat.add_comm 1]

/-- A read takes these bits and gives `a`, whatever follows them. -/
def Reads (x : BitRead α) (bs : List Bool) (a : α) : Prop := ∀ r, r.Starts bs → x r = (a, ⟨r.data, r.pos + bs.length⟩)

abbrev ReadsCode (y : CodeRead α) (bs : List Bool) (a : α) : Prop := @Reads (Except AudioError α) y bs (.ok a)

theorem reads_pure (a : α) : Reads (pure a) [] a := fun _ _ => rfl

theorem Reads.bind (hx : Reads x bs a) (hf : Reads (f a) cs b) : Reads (x >>= f) (bs ++ cs) b := by
  intro r h
  obtain ⟨hbs, hcs⟩ := starts_append.mp h
  show f (x r).1 (x r).2 = _
  rw [hx r hbs, hf _ hcs, length_append, Nat.add_assoc]

theorem ReadsCode.bind (hy : ReadsCode y bs a) (hk : ReadsCode (k a) cs b) : ReadsCode (y >>= k) (bs ++ cs) b :=
  Reads.bind (f := ExceptT.bindCont k) hy hk

theorem Reads.lift (hx : Reads x bs a) : ReadsCode (liftM x) bs a := by
  intro r h
  show (Except.ok (x r).1, (x r).2) = _
  rw [hx r h]

theorem Reads.bind_pure (hx : Reads x bs a) (f : α → β) : Reads (x >>= fun a => pure (f a)) bs (f a) := by
  simpa using hx.bind (f := fun a => pure (f a)) (reads_pure _)

theorem ReadsCode.bind_pure (hy : ReadsCode y bs a) (f : α → β) : ReadsCode (y >>= fun a => pure (f a)) bs (f a) := by
  simpa using hy.bind (k := fun a => pure (f a)) (reads_pure _)

theorem reads_several (h : ∀ a ∈ as, ReadsCode y (write a) a) :
    ReadsCode (several y as.length) (as.flatMap write) as := by
  induction as with
  | nil => exact reads_pure _
  | cons a as ih => exact (h a mem_cons_self).bind ((ih fun a ha => h a (mem_cons_of_mem _ ha)).bind_pure _)

theorem reads_bit (b : Bool) : Reads BitRead.bit [b] b := by
  intro r h
  rw [← h.1]
  rfl

theorem bitsAt_of_starts (h : r.Starts (codeBits code n)) : bitsAt r.data r.pos n = code % 2 ^ n := by
  induction n generalizing r with
  | zero => simp [bitsAt, Nat.mod_one]
  | succ n ih => rw [bitsAt_succ, ih h.2, h.1, Nat.toNat_testBit, Nat.mod_pow_succ]

theorem reads_bits (h : code < 2 ^ n) : Reads (BitRead.bits n) (codeBits code n) code := by
  intro r hr
  rw [BitRead.bits, bitsAt_of_starts hr, Nat.mod_eq_of_lt h, length_codeBits]

namespace Huffman

/-! ## Trees -/

namespace Tree

variable {t : Tree} {v : Nat}

/-- The value of a code, if it leads to a leaf. -/
def find : Tree → List Bool → Option Nat
  | .leaf value, [] => some value
  | .node l r, b :: bs => (if b then r else l).find bs
  | _, _ => none

theorem reads (h : t.find bs = some v) : Reads t.read bs (some v) := by
  induction t generalizing bs with
  | empty => cases bs <;> cases h
  | leaf value =>
    cases bs with
    | nil =>
      cases h
      exact reads_pure _
    | cons => cases h
  | node l r ihl ihr =>
    cases bs with
    | nil => cases h
    | cons b bs =>
      refine (reads_bit b).bind ?_
      cases b with
      | false => exact ihl h
      | true => exact ihr h

theorem find_insert_self (v : Nat) (t : Tree) : (insert v bs t).find bs = some v := by
  fun_induction insert v bs t <;> simp_all [find]

/-- A code is kept if neither it nor the new one begins with the other. -/
theorem find_insert_of_apart (v : Nat) (t : Tree) (h : ¬ bs <+: cs ∧ ¬ cs <+: bs) :
    (insert v cs t).find bs = t.find bs := by
  fun_induction insert v cs t generalizing bs <;> rcases bs with _ | ⟨_ | _, bs⟩ <;> simp_all [find, cons_prefix_cons]

/-- No code begins with another. -/
def PrefixFree (table : CodeTable) : Prop :=
  table.Pairwise fun c d => ¬ codeBits c.1 c.2 <+: codeBits d.1 d.2 ∧ ¬ codeBits d.1 d.2 <+: codeBits c.1 c.2

variable {value : Nat → Nat} {table : CodeTable} {i j : Nat}

theorem find_insertAll_of_apart (h : ∀ d ∈ table, ¬ bs <+: codeBits d.1 d.2 ∧ ¬ codeBits d.1 d.2 <+: bs) :
    (insertAll value i t table).find bs = t.find bs := by
  induction table generalizing i t with
  | nil => rfl
  | cons d table ih => rw [insertAll, ih (forall_mem_cons.mp h).2, find_insert_of_apart _ _ (h d mem_cons_self)]

theorem find_insertAll (h : PrefixFree table) (hcode : table[i]? = some code) :
    (insertAll value j t table).find (codeBits code.1 code.2) = some (value (j + i)) := by
  induction table generalizing i j t with
  | nil => simp at hcode
  | cons d table ih =>
    obtain ⟨hd, htable⟩ := pairwise_cons.mp h
    rw [insertAll]
    cases i with
    | zero =>
      cases hcode
      rw [find_insertAll_of_apart hd, find_insert_self, Nat.add_zero]
    | succ i => rw [ih htable hcode, Nat.add_assoc, Nat.add_comm 1]

/-- Whether the bits always lead to a leaf. -/
def full : Tree → Bool
  | .empty => false
  | .leaf _ => true
  | .node l r => l.full && r.full

/-- The length of the longest code. -/
def depth : Tree → Nat
  | .node l r => max l.depth r.depth + 1
  | _ => 0

theorem read_full (h : t.full) (r : BitReader) : ∃ v n, n ≤ t.depth ∧ t.read r = (some v, ⟨r.data, r.pos + n⟩) := by
  induction t generalizing r with
  | empty => cases h
  | leaf v => exact ⟨v, 0, le_rfl, rfl⟩
  | node l r' ihl ihr =>
    obtain ⟨hl, hr⟩ := Bool.and_eq_true_iff.mp h
    show ∃ v n, _ ∧ (if bitAt r.data r.pos then r'.read else l.read : BitRead _) ⟨r.data, r.pos + 1⟩ = _
    split
    · obtain ⟨v, n, hn, hread⟩ := ihr hr ⟨r.data, r.pos + 1⟩
      refine ⟨v, n + 1, Nat.succ_le_succ (hn.trans (Nat.le_max_right _ _)), ?_⟩
      rw [hread, Nat.add_assoc, Nat.add_comm 1]
    · obtain ⟨v, n, hn, hread⟩ := ihl hl ⟨r.data, r.pos + 1⟩
      refine ⟨v, n + 1, Nat.succ_le_succ (hn.trans (Nat.le_max_left _ _)), ?_⟩
      rw [hread, Nat.add_assoc, Nat.add_comm 1]

end Tree

/-! ## Values -/

variable {p : Int × Int} {q : List Int} {book : Book} {table extra : Nat}

/-- The sign of a value that is not zero. -/
def signBits (x : Int) : List Bool := if x = 0 then [] else [decide (x < 0)]

theorem reads_signed (x : Int) : Reads (signed x.natAbs) (signBits x) x := by
  unfold signed signBits
  by_cases hx : x = 0
  · rw [if_pos hx, if_pos (Int.natAbs_eq_zero.mpr hx), hx]
    exact reads_pure _
  · rw [if_neg hx, if_neg (Int.natAbs_ne_zero.mpr hx)]
    refine (reads_bit _).bind (?_ : Reads _ [] x)
    by_cases hneg : x < 0
    · rw [if_pos (by simpa using hneg), show -(x.natAbs : Int) = x by omega]
      exact reads_pure _
    · rw [if_neg (by simpa using hneg), show (x.natAbs : Int) = x by omega]
      exact reads_pure _

/-- The bits of a value behind its code: by how much it exceeds the table, where it may, and its sign. -/
def valueBits (extra : Nat) (x : Int) : List Bool :=
  (if 0 < extra ∧ 15 ≤ x.natAbs then codeBits (x.natAbs - 15) extra else []) ++ signBits x

/-- The magnitude that the code of a value stands for. -/
def coded (extra : Nat) (x : Int) : Nat := if 0 < extra then min x.natAbs 15 else x.natAbs

theorem reads_extended {x : Int} (h : 0 < extra → x.natAbs < 15 + 2 ^ extra) :
    Reads (extended extra (coded extra x)) (valueBits extra x) x := by
  unfold extended coded valueBits
  by_cases hextra : 0 < extra ∧ 15 ≤ x.natAbs
  · rw [if_pos hextra, if_pos hextra.1, Nat.min_eq_right hextra.2, if_pos ⟨hextra.1, rfl⟩]
    refine (reads_bits (by have := h hextra.1; omega)).bind ?_
    rw [Nat.add_sub_cancel' hextra.2]
    exact reads_signed x
  · rw [if_neg hextra, if_neg (by split <;> omega), nil_append]
    convert reads_signed x using 2
    split <;> omega

/-! ## Pairs and quadruples -/

/-- Whether the tree of a book has its codes, and no bits that are none. -/
def Book.sound (b : Book) : Bool :=
  b.tree.full && Nat.ble b.tree.depth 19 && b.codes.length = b.width * b.width &&
    b.codes.zipIdx.all fun c => b.tree.find (codeBits c.1.1 c.1.2) = some (16 * (c.2 / b.width) + c.2 % b.width)

theorem sound_pairBook : ∀ table < 32, (pairBook? table).all fun (b, extra) =>
    (b.width = 16 || extra = 0 && b.width ≤ 16) && b.sound := by
  -- that no two codes of a book clash is seen from its tree alone: it still has all of them
  decide +kernel

theorem pairBook?_eq_none (h : 32 ≤ table) : pairBook? table = none := by
  unfold pairBook?
  split <;> first | rfl | omega

theorem getD_pairTrees (table : Nat) :
    pairTrees.getD table none = (pairBook? table).map fun (b, extra) => (b.tree, extra) := by
  rw [pairTrees, Array.getD_eq_getD_getElem?, Array.getElem?_map]
  by_cases h : table < 32
  · rw [Array.getElem?_range, if_pos h]
    rfl
  · rw [Array.getElem?_eq_none (by simpa using h), pairBook?_eq_none (not_lt.mp h)]
    rfl

theorem of_pairBook (h : pairBook? table = some (book, extra)) :
    (book.width = 16 ∨ extra = 0 ∧ book.width ≤ 16) ∧ book.sound := by
  have hlt : table < 32 := by
    by_contra hge
    rw [pairBook?_eq_none (not_lt.mp hge)] at h
    cases h
  simpa [h] using sound_pairBook table hlt

theorem full_pairTree (h : pairBook? table = some (book, extra)) : book.tree.full ∧ book.tree.depth ≤ 19 := by
  have := (of_pairBook h).2
  simp only [Book.sound, Bool.and_eq_true, Nat.ble_eq] at this
  exact this.1.1

theorem full_quadTree (tableB : Bool) :
    (if tableB then quadTreeB else quadTreeA).full ∧ (if tableB then quadTreeB else quadTreeA).depth ≤ 19 := by
  cases tableB <;> decide

theorem Book.find_tree (h : book.sound) {x y : Nat} (hx : x < book.width) (hy : y < book.width) :
    let code := book.codes.getD (book.width * x + y) (0, 0)
    book.tree.find (codeBits code.1 code.2) = some (16 * x + y) := by
  simp only [Book.sound, Bool.and_eq_true, decide_eq_true_eq, all_eq_true] at h
  obtain ⟨⟨-, hlength⟩, hfind⟩ := h
  have hlt : book.width * x + y < book.codes.length := by
    rw [hlength]
    calc book.width * x + y < book.width * (x + 1) := by rw [Nat.mul_succ]; omega
      _ ≤ book.width * book.width := Nat.mul_le_mul_left _ hx
  have := hfind (book.codes[book.width * x + y], _) (mk_mem_zipIdx_iff_getElem?.mpr (getElem?_eq_getElem hlt))
  rwa [Nat.mul_add_div (by omega), Nat.div_eq_of_lt hy, Nat.mul_add_mod, Nat.mod_eq_of_lt hy, Nat.add_zero,
    ← getD_eq_getElem _ (0, 0) hlt] at this

/-- The values that a table can code, with the extra bits that it may have. -/
def Book.Fits (b : Book) (extra : Nat) (x : Int) : Prop :=
  x.natAbs < b.width ∨ 0 < extra ∧ x.natAbs ≤ 15 + 2 ^ extra - 1

/-- The bits of a pair: its code, then what belongs to each of the two values. -/
def Book.pairBits (b : Book) (extra : Nat) (p : Int × Int) : List Bool :=
  let code := b.codes.getD (b.width * coded extra p.1 + coded extra p.2) (0, 0)
  codeBits code.1 code.2 ++ (valueBits extra p.1 ++ valueBits extra p.2)

theorem reads_readPair (h : pairBook? table = some (book, extra)) (hp : book.Fits extra p.1 ∧ book.Fits extra p.2) :
    ReadsCode (readPair table) (book.pairBits extra p) p := by
  obtain ⟨hwidth, hsound⟩ := of_pairBook h
  have hcoded {x : Int} (hx : book.Fits extra x) : coded extra x < book.width := by
    unfold coded
    rcases hx with hx | hx <;> split <;> omega
  have hextra {x : Int} (hx : book.Fits extra x) (hpos : 0 < extra) : x.natAbs < 15 + 2 ^ extra := by
    have := Nat.one_le_two_pow (n := extra)
    rcases hx with hx | hx <;> omega
  have hy := hcoded hp.2
  -- the leaf of a pair has both magnitudes in one number, and no book has more than sixteen of them
  have hdiv : (16 * coded extra p.1 + coded extra p.2) / 16 = coded extra p.1 := by omega
  have hmod : (16 * coded extra p.1 + coded extra p.2) % 16 = coded extra p.2 := by omega
  unfold readPair
  rw [getD_pairTrees, h]
  refine (Tree.reads (Book.find_tree hsound (hcoded hp.1) hy)).lift.bind ?_
  refine (Reads.lift ?_).bind (.bind_pure (Reads.lift ?_) _)
  · rw [hdiv]
    exact reads_extended (hextra hp.1)
  · rw [hmod]
    exact reads_extended (hextra hp.2)

/-- The bits of a quadruple: its code, then the signs. -/
def quadBits (tableB : Bool) (q : List Int) : List Bool :=
  let code := (if tableB then quadsB else quadsA).getD (q.foldl (2 * · + ·.natAbs) 0) (0, 0)
  codeBits code.1 code.2 ++ q.flatMap signBits

def IsQuad (q : List Int) : Prop := q.length = 4 ∧ ∀ x ∈ q, x ∈ [-1, 0, 1]

theorem find_quadTree (tableB : Bool) : ∀ i < 16,
    let code := (if tableB then quadsB else quadsA).getD i (0, 0)
    (if tableB then quadTreeB else quadTreeA).find (codeBits code.1 code.2) = some i := by
  cases tableB <;> decide

theorem reads_readQuad (tableB : Bool) (h : IsQuad q) : ReadsCode (readQuad tableB) (quadBits tableB q) q := by
  obtain ⟨hlength, hq⟩ := h
  obtain ⟨v, w, x, y, rfl⟩ : ∃ v w x y, q = [v, w, x, y] := by
    rcases q with _ | ⟨v, _ | ⟨w, _ | ⟨x, _ | ⟨y, _ | _⟩⟩⟩⟩ <;> simp_all
  have hle : ∀ z ∈ [v, w, x, y], z.natAbs ≤ 1 := by
    intro z hz
    have hz := hq z hz
    simp only [mem_cons, not_mem_nil, or_false] at hz
    omega
  rw [forall_mem_cons, forall_mem_cons, forall_mem_cons, forall_mem_singleton] at hle
  clear hq
  refine (Tree.reads (find_quadTree tableB _ (by simp only [foldl]; omega))).lift.bind (Reads.lift ?_)
  simp only [quadValues, foldl, flatMap_cons, flatMap_nil, append_nil]
  refine Reads.bind (a := v) ?_ (.bind (a := w) ?_ (.bind (a := x) ?_ (.bind_pure (a := y) ?_ _)))
  all_goals
    convert reads_signed _ using 2
    omega

def Succeeds (y : CodeRead α) : Prop := ∀ r, ∃ a, (y r).1 = .ok a

theorem succeeds_lift (x : BitRead α) : Succeeds (liftM x) := fun r => ⟨(x r).1, rfl⟩

theorem succeeds_pure (a : α) : Succeeds (pure a) := fun _ => ⟨a, rfl⟩

theorem Succeeds.bind (hy : Succeeds y) (hk : ∀ a, Succeeds (k a)) : Succeeds (y >>= k) := by
  intro r
  obtain ⟨a, ha⟩ := hy r
  rw [run_bind_ok ha]
  exact hk a _

theorem succeeds_code {t : Tree} {k : Option Nat → CodeRead β} (ht : t.full) (hk : ∀ v, Succeeds (k (some v))) :
    Succeeds (liftM t.read >>= k) := by
  intro r
  obtain ⟨v, n, -, hread⟩ := t.read_full ht r
  rw [run_lift_bind, hread]
  exact hk v _

theorem succeeds_readPair (table : Nat) : Succeeds (readPair table) := by
  unfold readPair
  rw [getD_pairTrees]
  cases hbook : pairBook? table with
  | none => exact succeeds_pure _
  | some found =>
    refine succeeds_code (full_pairTree hbook).1 fun value => ?_
    exact (succeeds_lift _).bind fun x => (succeeds_lift _).bind fun y => succeeds_pure _

theorem succeeds_readQuad (tableB : Bool) : Succeeds (readQuad tableB) :=
  succeeds_code (full_quadTree tableB).1 fun _ => succeeds_lift _

end Huffman

namespace CodedChannel

theorem succeeds_readPairs (g : GranuleInfo) (regions : Nat × Nat) (line n : Nat) :
    Succeeds (readPairs g regions line n) := by
  induction n generalizing line with
  | zero => exact succeeds_pure _
  | succ n ih => exact (succeeds_readPair _).bind fun _ => (ih _).bind fun _ => succeeds_pure _

theorem succeeds_readQuads (tableB : Bool) (stop n : Nat) : Succeeds (readQuads tableB stop n) := by
  induction n with
  | zero => exact succeeds_pure _
  | succ n ih =>
    refine (succeeds_lift _).bind fun pos => ?_
    split
    · exact succeeds_pure _
    refine (succeeds_readQuad tableB).bind fun quad => (succeeds_lift _).bind fun pos => ?_
    split
    · exact succeeds_pure _
    · exact ih.bind fun _ => succeeds_pure _

theorem succeeds_read (g : GranuleInfo) (bands : Bands) (reuse : List Bool) (previous : Option Scalefactors) :
    Succeeds (read g bands reuse previous) := by
  refine (succeeds_lift _).bind fun start => (succeeds_lift _).bind fun scale => .bind ?_ fun _ => succeeds_pure _
  unfold readLines
  split
  · exact succeeds_pure _
  · exact (succeeds_readPairs _ _ _ _).bind fun _ => (succeeds_readQuads _ _ _).bind fun _ =>
      (succeeds_lift _).bind fun _ => succeeds_pure _

end CodedChannel

theorem CodedGranule.succeeds_read (bands : Bands) (gs : List GranuleInfo) (reuse : List (List Bool))
    (earlier : CodedGranule) : Succeeds (read bands gs reuse earlier) := by
  induction gs generalizing reuse earlier with
  | nil => exact succeeds_pure _
  | cons g gs ih =>
    exact (CodedChannel.succeeds_read _ _ _ _).bind fun _ => (ih _ _).bind fun _ => succeeds_pure _

theorem exists_mainData (h : Header) (side : SideInfo) (data : Array UInt8) :
    ∃ coded, mainData h side data = .ok coded := by
  have hread := CodedGranule.succeeds_read (Bands.of h.rate)
  exact (hread _ _ _).bind (fun first => (hread _ _ first).bind fun _ => succeeds_pure _) _

/-! ## Quadruples of a part -/

theorem length_readPairs (h : (CodedChannel.readPairs g regions line n r).1 = .ok xs) : xs.length = 2 * n := by
  induction n generalizing line r xs with
  | zero =>
    cases h
    rfl
  | succ n ih =>
    rw [CodedChannel.readPairs] at h
    obtain ⟨pair, -, h⟩ := of_bind_ok h
    obtain ⟨ys, hys, h⟩ := of_bind_ok h
    have hlength := ih hys
    cases h
    rw [length_cons, length_cons, hlength]
    omega

theorem length_readQuad (h : (readQuad tableB r).1 = .ok quad) : quad.length = 4 := by
  rw [readQuad] at h
  obtain ⟨found, -, h⟩ := of_bind_ok h
  cases found with
  | none => cases h
  | some value =>
    cases h
    rfl

namespace CodedChannel

variable {tableB : Bool} {stop room k : Nat} {xs : List Int} {quads : List (List Int)}

/-- Where so many quadruples end. -/
def quadsEnd (tableB : Bool) (r : BitReader) (n : Nat) : Nat := (several (readQuad tableB) n r).2.pos

/-- The first `k` quadruples from a reader on are in a part that ends at `stop`, and no more of at most `room`. -/
structure QuadsCounted (tableB : Bool) (stop room : Nat) (r : BitReader) (k : Nat) (quads : List (List Int)) : Prop where
  read : (several (readQuad tableB) k r).1 = .ok quads
  inside : ∀ j, 0 < j → j ≤ k → quadsEnd tableB r j ≤ stop
  le : k ≤ room
  most : k = room ∨ stop ≤ quadsEnd tableB r k ∨ stop < quadsEnd tableB r (k + 1)

theorem quadsEnd_succ (tableB : Bool) (r : BitReader) (n : Nat) :
    quadsEnd tableB r (n + 1) = quadsEnd tableB (readQuad tableB r).2 n := by
  obtain ⟨quad, hquad⟩ := succeeds_readQuad tableB r
  rw [quadsEnd, run_several_succ hquad, quadsEnd]

theorem quadsCounted_nil (h : room = 0 ∨ stop ≤ r.pos ∨ stop < (readQuad tableB r).2.pos) :
    QuadsCounted tableB stop room r 0 [] := by
  refine ⟨rfl, fun j hpos hj => absurd hpos (by omega), Nat.zero_le _, ?_⟩
  rw [quadsEnd_succ]
  exact h.imp_left Eq.symm

theorem QuadsCounted.cons (hquad : (readQuad tableB r).1 = .ok quad)
    (hinside : (readQuad tableB r).2.pos ≤ stop) (h : QuadsCounted tableB stop room (readQuad tableB r).2 k quads) :
    QuadsCounted tableB stop (room + 1) r (k + 1) (quad :: quads) := by
  refine ⟨by rw [run_several_succ hquad, h.read]; rfl, fun j hpos hj => ?_, Nat.succ_le_succ h.le, ?_⟩
  · obtain ⟨j, rfl⟩ := Nat.exists_eq_add_of_lt hpos
    rw [Nat.zero_add, quadsEnd_succ]
    rcases j.eq_zero_or_pos with rfl | hj'
    · exact hinside
    · exact h.inside j hj' (by omega)
  · rw [quadsEnd_succ, quadsEnd_succ]
    exact h.most.imp_left (congrArg (· + 1))

theorem quadsCounted_readQuads (h : (readQuads tableB stop room r).1 = .ok xs) :
    ∃ k quads, QuadsCounted tableB stop room r k quads ∧ xs = quads.flatten ∧ xs.length = 4 * k := by
  induction room generalizing r xs with
  | zero =>
    cases h
    exact ⟨0, [], quadsCounted_nil (.inl rfl), rfl, rfl⟩
  | succ room ih =>
    rw [readQuads, run_position_bind] at h
    -- the position is asked twice: before a quadruple, which may not begin, and behind it, when it is dropped
    by_cases hstop : stop ≤ r.pos
    · rw [if_pos hstop] at h
      cases h
      exact ⟨0, [], quadsCounted_nil (.inr (.inl hstop)), rfl, rfl⟩
    rw [if_neg hstop] at h
    obtain ⟨quad, hquad, h⟩ := of_bind_ok h
    rw [run_position_bind] at h
    by_cases hpast : stop < (readQuad tableB r).2.pos
    · rw [if_pos hpast] at h
      cases h
      exact ⟨0, [], quadsCounted_nil (.inr (.inr hpast)), rfl, rfl⟩
    · rw [if_neg hpast] at h
      obtain ⟨rest, hrest, h⟩ := of_bind_ok h
      obtain ⟨k, quads, hcounted, rfl, hlength⟩ := ih hrest
      cases h
      refine ⟨k + 1, quad :: quads, hcounted.cons hquad (not_lt.mp hpast), rfl, ?_⟩
      rw [length_append, length_readQuad hquad, hlength]
      omega

/-- **The lines of a part** are its pairs and then as many of the quadruples behind them as there is room for and end in
the part. All further lines are zero. -/
theorem readLines_counted {g : GranuleInfo} {bands : Bands} {start zeroFrom : Nat} {lines : Array Int}
    (hpart : 0 < g.length) (hbig : g.bigValues ≤ maxBigValues)
    (h : (readLines g bands start r).1 = .ok (lines, zeroFrom)) :
    ∃ pairs r' k quads, readPairs g (regions g bands) 0 g.bigValues r = (.ok pairs, r') ∧
      (several (readQuad g.quadTableB) k r').1 = .ok quads ∧ lines.toList = pairs ++ quads.flatten ∧
      zeroFrom = 2 * g.bigValues + 4 * k ∧ zeroFrom ≤ lineCount ∧ (∀ i, zeroFrom ≤ i → lines.getD i 0 = 0) ∧
      (∀ j, 0 < j → j ≤ k → quadsEnd g.quadTableB r' j ≤ start + g.length) ∧
      (lineCount < zeroFrom + 4 ∨ start + g.length ≤ quadsEnd g.quadTableB r' k ∨
        start + g.length < quadsEnd g.quadTableB r' (k + 1)) := by
  rw [readLines, if_neg hpart.ne'] at h
  obtain ⟨pairs, hpairs, h⟩ := of_bind_ok h
  obtain ⟨xs, hxs, h⟩ := of_bind_ok h
  obtain ⟨k, quads, hcounted, rfl, hlength⟩ := quadsCounted_readQuads hxs
  have hpairs' : pairs.length = 2 * g.bigValues := length_readPairs hpairs
  have hroom : k ≤ (lineCount - 2 * g.bigValues) / 4 := hcounted.le
  simp only [maxBigValues, lineCount] at hbig hroom ⊢
  cases h
  refine ⟨pairs, _, k, quads, Prod.ext hpairs rfl, hcounted.read, rfl, by omega, by omega, fun i hi => ?_,
    hcounted.inside, hcounted.most.imp_left fun hk => ?_⟩
  · rw [← length_append] at hi
    rw [Array.getD_eq_getD_getElem?, getElem?_toArray, getElem?_eq_none hi]
    rfl
  · simp only [lineCount] at hk
    omega

theorem readLines_counted_one : (readLines { length := 4, quadTableB := true } (Bands.of .hz44100) 0 ⟨#[0xf0], 0⟩).1 =
    .ok (#[0, 0, 0, 0], 4) ∧ ∃ k, 4 = 2 * 0 + 4 * k ∧ 4 ≤ lineCount := by
  have hread : (readLines { length := 4, quadTableB := true } (Bands.of .hz44100) 0 ⟨#[0xf0], 0⟩).1 =
    .ok (#[0, 0, 0, 0], 4) := by rfl
  obtain ⟨-, -, k, -, -, -, -, hk, hle, -⟩ := readLines_counted (by decide) (by decide) hread
  exact ⟨hread, k, hk, hle⟩

end CodedChannel

end GameMedia.Audio
