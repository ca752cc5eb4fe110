import GameMedia.Proofs.Shader.Calls

/-!
# Filtering uniforms

A filter keeps the words of the uniforms that an entry point can read, and zeroes the others. Words belong to uniforms
by their sizes, one uniform after another, so the table of factors has at each word the factor of the uniform that the
word belongs to. The table is found at the first call and remembered. Since it depends on the program alone, what a
call does to a buffer does not depend on the calls before.
-/

namespace GameMedia.Shader

open List Code

variable {t : Ty} {ts : List Ty} {k : Nat}

namespace Program

/-! ## Uniforms that are read -/

/-- **An entry point can read the uniform**: it occurs in the entry point or in a function that chains of calls lead
to from there. -/
def Reads (p : Program) (i : Nat) : Prop :=
  ∃ entry, (p.vertex = some entry ∨ p.fragment = some entry) ∧
    (Block.Contains (.uniform i) entry ∨ ∃ f, p.Calls entry f ∧ Block.Contains (.uniform i) f.body)

variable {p : Program}

theorem mem_runningBlocks (hp : p.Distinct) :
    b ∈ p.runningBlocks entry ↔ b = entry ∨ ∃ f, p.Calls entry f ∧ f.body = b := by
  simp only [runningBlocks, mem_cons, List.mem_map, mem_reachableFuncs hp]

theorem mem_reachableUniforms (hp : p.Distinct) : i ∈ p.reachableUniforms ↔ p.Reads i := by
  simp only [reachableUniforms, mem_ascending, mem_flatMap, mem_append, Option.mem_toList,
    mem_runningBlocks hp, Block.mem_uniforms, Reads]
  constructor
  · rintro ⟨b, ⟨entry, hentry, hb⟩, hi⟩
    refine ⟨entry, hentry, ?_⟩
    rcases hb with rfl | ⟨f, hf, rfl⟩
    · exact .inl hi
    · exact .inr ⟨f, hf, hi⟩
  · rintro ⟨entry, hentry, hi | ⟨f, hf, hi⟩⟩
    · exact ⟨entry, ⟨entry, hentry, .inl rfl⟩, hi⟩
    · exact ⟨f.body, ⟨entry, hentry, .inr ⟨f, hf, rfl⟩⟩, hi⟩

end Program

/-! ## Words of uniforms -/

/-- The words of values one after another. -/
def wordCount (ts : List Ty) : Nat := (ts.map Ty.dwordCount).sum

theorem dwordSum_eq (ts : List Ty) : Ty.dwordSum ts = wordCount ts := by
  induction ts with
  | nil => simp [Ty.dwordSum, wordCount]
  | cons t ts ih => rw [Ty.dwordSum, ih, wordCount, wordCount, map_cons, sum_cons]

/-- Word `k` belongs to value `i`: it is one of so many words behind those of the values before. -/
def Owns (ts : List Ty) (i k : Nat) : Prop :=
  ∃ t, ts[i]? = some t ∧ wordCount (ts.take i) ≤ k ∧ k < wordCount (ts.take i) + t.dwordCount

theorem owns_zero : Owns (t :: ts) 0 k ↔ k < t.dwordCount := by
  simp [Owns, wordCount]

theorem owns_succ : Owns (t :: ts) (i + 1) k ↔ t.dwordCount ≤ k ∧ Owns ts i (k - t.dwordCount) := by
  simp only [Owns, wordCount, List.getElem?_cons_succ, take_succ_cons, map_cons, sum_cons]
  constructor
  · rintro ⟨u, hu, hle, hlt⟩
    exact ⟨by omega, u, hu, by omega, by omega⟩
  · rintro ⟨hle, u, hu, hle', hlt⟩
    exact ⟨u, hu, by omega, by omega⟩

theorem exists_owns (hk : k < wordCount ts) : ∃ i, Owns ts i k := by
  induction ts generalizing k with
  | nil => exact absurd hk (Nat.not_lt_zero k)
  | cons t ts ih =>
    by_cases hfirst : k < t.dwordCount
    · exact ⟨0, owns_zero.mpr hfirst⟩
    · have hlt : k - t.dwordCount < wordCount ts := by
        simp only [wordCount, map_cons, sum_cons] at hk ⊢
        omega
      obtain ⟨i, hi⟩ := ih hlt
      exact ⟨i + 1, owns_succ.mpr ⟨Nat.le_of_not_lt hfirst, hi⟩⟩

theorem Owns.lt (h : Owns ts i k) : k < wordCount ts := by
  induction ts generalizing i k with
  | nil =>
    obtain ⟨t, ht, -⟩ := h
    cases ht
  | cons t ts ih =>
    have hcount : wordCount (t :: ts) = t.dwordCount + wordCount ts := rfl
    cases i with
    | zero => exact hcount ▸ Nat.lt_add_right _ (owns_zero.mp h)
    | succ i =>
      obtain ⟨hle, howns⟩ := owns_succ.mp h
      have := ih howns
      omega

theorem length_factorsFrom (keep : Nat → Bool) (n : Nat) (ts : List Ty) :
    (factorsFrom keep n ts).length = wordCount ts := by
  induction ts generalizing n with
  | nil => rfl
  | cons t ts ih =>
    rw [factorsFrom, length_append, length_replicate, ih, wordCount, wordCount, map_cons,
      sum_cons]

/-- The table has at each word the factor of the value that the word belongs to. -/
theorem factorsFrom_owned (keep : Nat → Bool) (n : Nat) (h : Owns ts i k) :
    (factorsFrom keep n ts)[k]? = some (if keep (n + i) then 1 else 0) := by
  induction ts generalizing n i k with
  | nil =>
    obtain ⟨t, ht, -⟩ := h
    cases ht
  | cons t ts ih =>
    cases i with
    | zero =>
      have hk := owns_zero.mp h
      rw [factorsFrom, List.getElem?_append_left (by simpa using hk), List.getElem?_replicate, if_pos hk,
        Nat.add_zero]
    | succ i =>
      obtain ⟨hle, howns⟩ := owns_succ.mp h
      rw [factorsFrom, List.getElem?_append_right (by simpa using hle), length_replicate, ih _ howns]
      rw [show n + 1 + i = n + (i + 1) by omega]

/-! ## Filtered buffers -/

section

variable {p : Program} {buffer : List UInt32}

def Program.masked (p : Program) (buffer : List UInt32) : List UInt32 := List.zipWith (· * ·) buffer p.uniformFactors

theorem Program.length_uniformFactors (p : Program) : p.uniformFactors.length = wordCount p.uniforms :=
  length_factorsFrom _ _ _

theorem Program.length_masked (h : buffer.length = wordCount p.uniforms) :
    (p.masked buffer).length = wordCount p.uniforms := by
  rw [masked, length_zipWith, length_uniformFactors, h, Nat.min_self]

theorem Program.masked_read (hp : p.Distinct) (howns : Owns p.uniforms i k) (hread : p.Reads i) :
    (p.masked buffer)[k]? = buffer[k]? := by
  have hfactor := factorsFrom_owned p.reachableUniforms.contains 0 howns
  rw [Nat.zero_add, if_pos (contains_iff_mem.mpr ((mem_reachableUniforms hp).mpr hread))] at hfactor
  rw [masked, List.getElem?_zipWith, uniformFactors, hfactor]
  cases buffer[k]? <;> simp

theorem Program.masked_unread (hp : p.Distinct) (h : buffer.length = wordCount p.uniforms)
    (howns : Owns p.uniforms i k) (hread : ¬p.Reads i) : (p.masked buffer)[k]? = some 0 := by
  have hfactor := factorsFrom_owned p.reachableUniforms.contains 0 howns
  rw [Nat.zero_add, if_neg (fun h => hread ((mem_reachableUniforms hp).mp (contains_iff_mem.mp h)))] at hfactor
  rw [masked, List.getElem?_zipWith, uniformFactors, hfactor, List.getElem?_eq_getElem (h ▸ howns.lt)]
  simp

/-- What is filtered depends on the words of uniforms that are read, and on nothing else. -/
theorem Program.masked_congr (hp : p.Distinct) (h : buffer.length = wordCount p.uniforms)
    (hother : other.length = wordCount p.uniforms)
    (hagree : ∀ i k, p.Reads i → Owns p.uniforms i k → other[k]? = buffer[k]?) : p.masked other = p.masked buffer := by
  refine ext_getElem? fun k => ?_
  by_cases hk : k < wordCount p.uniforms
  · obtain ⟨i, hi⟩ := exists_owns hk
    by_cases hread : p.Reads i
    · rw [masked_read hp hi hread, masked_read hp hi hread, hagree i k hread hi]
    · rw [masked_unread hp hother hi hread, masked_unread hp h hi hread]
  · have hle := Nat.le_of_not_lt hk
    rw [List.getElem?_eq_none (by rwa [length_masked hother]), List.getElem?_eq_none (by rwa [length_masked h])]

theorem Program.masked_masked (hp : p.Distinct) (h : buffer.length = wordCount p.uniforms) :
    p.masked (p.masked buffer) = p.masked buffer :=
  masked_congr hp h (length_masked h) fun _ _ hread hi => masked_read hp hi hread

end

/-! ## Calls of a filter -/

namespace UniformFilter

def after (p : Program) (history : List (List UInt32)) : UniformFilter :=
  history.foldl (fun s buffer => (s.apply buffer).2.2) ⟨p, none⟩

structure Remembers (p : Program) (s : UniformFilter) : Prop where
  program : s.program = p
  factors : ∀ t, s.factors = some t → t = p.uniformFactors

variable {p : Program} {s : UniformFilter} {buffer : List UInt32}

theorem Remembers.getD (h : Remembers p s) : s.factors.getD p.uniformFactors = p.uniformFactors := by
  cases hs : s.factors with
  | none => rfl
  | some t => exact h.factors t hs

theorem Remembers.apply_ok (h : Remembers p s) (hlen : buffer.length = wordCount p.uniforms) :
    s.apply buffer = (.ok (), p.masked buffer, ⟨p, some p.uniformFactors⟩) := by
  obtain ⟨program, factors⟩ := s
  obtain rfl := h.program
  simp only [apply, dwordSum_eq, hlen, if_true, h.getD, Program.masked]

theorem Remembers.apply_error (h : Remembers p s) (hlen : buffer.length ≠ wordCount p.uniforms) :
    s.apply buffer = (.error (.uniformSize (wordCount p.uniforms) buffer.length), buffer, s) := by
  rw [apply, h.program, dwordSum_eq, if_neg hlen]

/-- A call leaves the filter with the program's factors, or as it was. -/
theorem Remembers.apply (h : Remembers p s) (buffer : List UInt32) : Remembers p (s.apply buffer).2.2 := by
  by_cases hlen : buffer.length = wordCount p.uniforms
  · rw [h.apply_ok hlen]
    exact ⟨rfl, fun t ht => (Option.some.inj ht).symm⟩
  · rw [h.apply_error hlen]
    exact h

theorem remembers_after (p : Program) (history : List (List UInt32)) : Remembers p (after p history) := by
  have hrun : ∀ s, Remembers p s → Remembers p (history.foldl (fun s buffer => (s.apply buffer).2.2) s) := by
    induction history with
    | nil => exact fun s h => h
    | cons buffer history ih => exact fun s h => ih _ (h.apply buffer)
  exact hrun ⟨p, none⟩ ⟨rfl, fun _ h => by cases h⟩

end UniformFilter

/-- A fragment that reads one uniform itself and another through two functions that call each other. -/
def roundaboutSample : Program where
  uniforms := [.float, .basic .vec2, .array .float 2]
  funcs :=
    [⟨4, [], [], .none, .mk [] 0 [.expr (.call (.func 1) [])]⟩,
      ⟨1, [], [], .none, .mk [] 0 [.expr (.uniform 2), .expr (.call (.func 4) [])]⟩]
  fragment := some (.mk [] 1 [.branch (.uniform 0) (.mk [] 1 [.expr (.call (.func 4) [])]) none])

end GameMedia.Shader
