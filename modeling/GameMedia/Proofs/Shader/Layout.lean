import Mathlib
import GameMedia.Shader.Layout

/-!
# Uniforms in their registers

What a shader's user relies on who fills the constant buffer: no two uniforms overlap, nothing that fits a register lies
across two, and no word is left free without need. The rules for where a value may start are stated on their own, and
each uniform is shown to get the first place that they allow. What lies inside a uniform is said of its parts, at any
depth: all of them start a register but the uniform itself, and they stay inside its words.

Nothing here needs the types to be well formed, or the buffer to be small.
-/

namespace GameMedia.Shader.Layout

open Option Nat

variable {start k o : Nat} {t elem : Ty}

/-! ## Where a value may start -/

/-- A scalar or a vector. It has to lie in one register. -/
def FitsRegister (t : Ty) : Prop := t.tag ∈ [.bool, .int, .float] ∨ t.isVector = true

/-- A scalar or a vector of two components. It may start where another value ends. -/
def MayFollow (t : Ty) : Prop := t.tag ∈ [.bool, .int, .float, .vec2, .ivec2]

/-- The rules for where a value may start. -/
structure Allows (t : Ty) (start : Nat) : Prop where
  within : FitsRegister t → start % registerDwords + packedSize t ≤ registerDwords
  aligned : ¬MayFollow t → start % registerDwords = 0

theorem le_alignToRegister (head : Nat) : head ≤ alignToRegister head := by
  simp only [alignToRegister, registerDwords]
  omega

theorem alignToRegister_mod (head : Nat) : alignToRegister head % registerDwords = 0 := mul_mod_left _ _

theorem alignToRegister_le (h : head ≤ start) (hs : start % registerDwords = 0) :
    alignToRegister head ≤ start := by
  simp only [alignToRegister, registerDwords] at hs ⊢
  omega

/-- The three ways to place a value: it follows the one before, it does so unless it would lie across two registers, or
it starts a register. -/
theorem place_cases (t : Ty) (head : Nat) :
    (packedSize t = 1 ∧ MayFollow t ∧ place t head = head) ∨
    (packedSize t = 2 ∧ FitsRegister t ∧ MayFollow t ∧
      place t head = if registerDwords - head % registerDwords < 2 then alignToRegister head else head) ∨
    ((FitsRegister t → packedSize t ≤ registerDwords) ∧ ¬MayFollow t ∧ place t head = alignToRegister head) := by
  obtain ⟨tag, parts, length⟩ := t
  cases tag <;>
    simp [packedSize, FitsRegister, MayFollow, place, registerDwords, Ty.tag, Ty.isVector, Ty.isFloatVector,
      Ty.isIntVector]

theorem packedSize_le_of_fitsRegister (h : FitsRegister t) : packedSize t ≤ registerDwords := by
  rcases place_cases t 0 with ⟨hsize, -⟩ | ⟨hsize, -⟩ | ⟨hsize, -⟩
  · rw [hsize]
    decide
  · rw [hsize]
    decide
  · exact hsize h

theorem allows_of_mod_eq_zero (t : Ty) (h : start % registerDwords = 0) : Allows t start where
  within := by
    intro ht
    rw [h, Nat.zero_add]
    exact packedSize_le_of_fitsRegister ht
  aligned := fun _ => h

/-- **A value gets the first place that the rules allow.** -/
theorem place_isLeast (t : Ty) (head : Nat) : IsLeast {start | head ≤ start ∧ Allows t start} (place t head) := by
  rcases place_cases t head with ⟨hsize, hmay, hplace⟩ | ⟨hsize, hfits, hmay, hplace⟩ | ⟨-, hmay, hplace⟩
  · rw [hplace]
    refine ⟨⟨le_rfl, fun _ => ?_, fun h => absurd hmay h⟩, fun start hs => hs.1⟩
    have hlt : head % registerDwords < registerDwords := mod_lt _ (by decide)
    omega
  · rw [hplace]
    split
    · next hfull =>
      -- one word is left in the register, so the value cannot start before the next one
      refine ⟨⟨le_alignToRegister head, allows_of_mod_eq_zero t (alignToRegister_mod head)⟩, fun start hs => ?_⟩
      have hwithin := hs.2.within hfits
      rw [hsize] at hwithin
      have hle := hs.1
      simp only [alignToRegister, registerDwords] at hfull hwithin ⊢
      omega
    · next hroom =>
      refine ⟨⟨le_rfl, fun _ => ?_, fun h => absurd hmay h⟩, fun start hs => hs.1⟩
      have hlt : head % registerDwords < registerDwords := mod_lt _ (by decide)
      omega
  · rw [hplace]
    refine ⟨⟨le_alignToRegister head, allows_of_mod_eq_zero t (alignToRegister_mod head)⟩, fun start hs => ?_⟩
    exact alignToRegister_le hs.1 (hs.2.aligned hmay)

/-! ## Inside a value -/

/-- The words from one element of an array to the next. -/
def stride (elem : Ty) : Nat := alignToRegister (packedSize elem)

/-- The part of a type that lies so many words behind the start of a value: the value itself, an element of an array or
a member of a struct, and the parts of these. -/
inductive Part : Ty → Nat → Ty → Prop
  | whole (t : Ty) : Part t 0 t
  | element {t elem u : Ty} {k o : Nat} : t.elem? = some elem → k < t.length → Part elem o u →
      Part t (k * stride elem + o) u
  | member {t m u : Ty} {before after : List Ty} {o : Nat} : t.tag = .struct → t.parts = before ++ m :: after →
      Part m o u → Part t (packedMembers before + o) u

theorem packedMembers_append (ts us : List Ty) : packedMembers (ts ++ us) = packedMembers ts + packedMembers us := by
  induction ts with
  | nil => simp [packedMembers]
  | cons t ts ih => rw [List.cons_append, packedMembers, packedMembers, ih, Nat.add_assoc]

theorem packedMembers_mod (ts : List Ty) : packedMembers ts % registerDwords = 0 := by
  induction ts with
  | nil => rfl
  | cons t ts ih => rw [packedMembers, add_mod, alignToRegister_mod, ih]; rfl

theorem packedSize_array (he : t.elem? = some elem) (hn : t.length = n + 1) :
    packedSize t = stride elem * n + packedSize elem := by
  obtain ⟨tag, parts, length⟩ := t
  unfold Ty.elem? at he
  split at he
  · next htag =>
    obtain rfl : tag = .array := htag
    obtain rfl : length = n + 1 := hn
    cases parts with
    | nil => cases he
    | cons u us =>
      obtain rfl : u = elem := some.inj he
      rw [packedSize, stride]
  · cases he

theorem element_le (he : t.elem? = some elem) (hk : k < t.length) :
    k * stride elem + packedSize elem ≤ packedSize t := by
  obtain ⟨n, hn⟩ : ∃ n, t.length = n + 1 := ⟨t.length - 1, by omega⟩
  rw [packedSize_array he hn, Nat.mul_comm]
  have hle : stride elem * k ≤ stride elem * n := Nat.mul_le_mul_left _ (by omega)
  omega

/-- Elements of an array end before the ones behind them start. -/
theorem elements_apart (h : k < l) : k * stride elem + packedSize elem ≤ l * stride elem :=
  calc k * stride elem + packedSize elem
      ≤ k * stride elem + stride elem := Nat.add_le_add_left (le_alignToRegister _) _
    _ = (k + 1) * stride elem := (succ_mul _ _).symm
    _ ≤ l * stride elem := Nat.mul_le_mul_right _ h

theorem packedSize_struct (h : t.tag = .struct) : packedSize t = packedMembers t.parts := by
  obtain ⟨tag, parts, length⟩ := t
  obtain rfl : tag = .struct := h
  rw [packedSize, Ty.parts]

/-- **A part ends inside the value.** -/
theorem Part.le (h : Part t o u) : o + packedSize u ≤ packedSize t := by
  induction h with
  | whole t => exact (Nat.zero_add _).le
  | element he hk _ ih =>
    have hin := element_le he hk
    omega
  | @member t m u before after o htag hparts _ ih =>
    have hpad := le_alignToRegister (packedSize m)
    rw [packedSize_struct htag, hparts, packedMembers_append, packedMembers]
    omega

/-- **Every part starts a register** if the value does. -/
theorem Part.mod_eq_zero (h : Part t o u) : o % registerDwords = 0 := by
  induction h with
  | whole t => rfl
  | @element t elem u k o he hk _ ih =>
    rw [add_mod, ih, mul_mod, stride, alignToRegister_mod]
    rfl
  | @member t m u before after o htag hparts _ ih =>
    rw [add_mod, ih, packedMembers_mod]
    rfl

/-- The rules hold for the parts where they hold for the value, because what has parts starts a register. -/
theorem Part.allows (h : Part t o u) (ht : Allows t start) : Allows u (start + o) := by
  by_cases hmay : MayFollow t
  -- what may follow another value is all of one piece
  · cases h with
    | whole t => exact ht
    | element he hk _ =>
      unfold Ty.elem? at he
      split at he
      · next htag => simp [MayFollow, htag] at hmay
      · cases he
    | member htag _ _ => simp [MayFollow, htag] at hmay
  · refine allows_of_mod_eq_zero u ?_
    rw [add_mod, ht.aligned hmay, h.mod_eq_zero]
    rfl

/-! ## Unpacked values -/

mutual

/-- **The words of a uniform hold its value**, also with nothing between its parts. -/
theorem dwordCount_le_packedSize : (t : Ty) → t.dwordCount ≤ packedSize t
  | .mk tag parts length => by
      cases tag with
      | array =>
        match parts, length with
        | [], _ => simp [Ty.dwordCount]
        | t :: ts, 0 => simp [Ty.dwordCount]
        | t :: ts, n + 1 =>
          have ht := dwordCount_le_packedSize t
          have hpad := le_alignToRegister (packedSize t)
          rw [Ty.dwordCount, packedSize, mul_succ]
          exact Nat.add_le_add (Nat.mul_le_mul_right n (ht.trans hpad)) ht
      | struct => exact dwordSum_le_packedMembers parts
      | _ => simp [Ty.dwordCount, packedSize]

theorem dwordSum_le_packedMembers : (ts : List Ty) → Ty.dwordSum ts ≤ packedMembers ts
  | [] => le_rfl
  | t :: ts =>
    Nat.add_le_add ((dwordCount_le_packedSize t).trans (le_alignToRegister _)) (dwordSum_le_packedMembers ts)

end

/-! ## All uniforms -/

/-- Where the words of the values before number `i` end. -/
def ending (head : Nat) (ts : List Ty) (starts : List Nat) : Nat → Nat
  | 0 => head
  | i + 1 => starts.getD i 0 + packedSize (ts.getD i .none)

/-- What makes a layout from word `head` on a good one. -/
structure Placed (head : Nat) (ts : List Ty) (starts : List Nat) : Prop where
  length : starts.length = ts.length
  /-- No value is allowed to start earlier, given where the one before it ends. -/
  least : ∀ (i : Nat) (t : Ty) (o : Nat), ts[i]? = some t → starts[i]? = some o →
    IsLeast {start | ending head ts starts i ≤ start ∧ Allows t start} o
  apart : ∀ (i j : Nat) (t : Ty) (o o' : Nat), i < j → ts[i]? = some t → starts[i]? = some o → starts[j]? = some o' →
    o + packedSize t ≤ o'

theorem le_of_mem_offsetsFrom (h : o ∈ offsetsFrom head ts) : head ≤ o := by
  induction ts generalizing head with
  | nil => cases h
  | cons t ts ih =>
    have hle : head ≤ place t head := (place_isLeast t head).1.1
    rcases List.mem_cons.mp h with rfl | h
    · exact hle
    · have hlater := ih h
      omega

theorem offsetsFrom_placed (head : Nat) (ts : List Ty) : Placed head ts (offsetsFrom head ts) := by
  induction ts generalizing head with
  | nil => exact ⟨rfl, by simp, by simp⟩
  | cons t ts ih =>
    have hrest := ih (place t head + packedSize t)
    refine ⟨congrArg (· + 1) hrest.length, fun i u o hu ho => ?_, fun i j u o o' hij hu ho ho' => ?_⟩
    · cases i with
      | zero =>
        obtain rfl := some.inj hu
        obtain rfl := some.inj ho
        exact place_isLeast t head
      | succ i =>
        -- the first of the rest begins where this value ends
        have hleast := hrest.least i u o hu ho
        cases i with
        | zero => exact hleast
        | succ i => exact hleast
    · cases j with
      | zero => exact absurd hij (Nat.not_lt_zero i)
      | succ j =>
        cases i with
        | zero =>
          obtain rfl := some.inj hu
          obtain rfl := some.inj ho
          exact le_of_mem_offsetsFrom (List.mem_of_getElem? ho')
        | succ i => exact hrest.apart i j u o o' (lt_of_succ_lt_succ hij) hu ho ho'

/-- What lies inside a value that starts at a word. -/
structure Holds (t : Ty) (start : Nat) : Prop where
  unpacked : t.dwordCount ≤ packedSize t
  parts : ∀ d u, Part t d u → Allows u (start + d) ∧ start + d + packedSize u ≤ start + packedSize t
  /-- The elements of an array, wherever it is nested, are inside the value and do not overlap. -/
  elements : ∀ d u elem, Part t d u → u.elem? = some elem →
    (∀ k < u.length, start + d + k * stride elem + packedSize elem ≤ start + packedSize t) ∧
      ∀ k l, k < l → l < u.length → start + d + k * stride elem + packedSize elem ≤ start + d + l * stride elem

theorem Allows.holds (h : Allows t start) : Holds t start where
  unpacked := dwordCount_le_packedSize t
  parts := by
    intro d u hpart
    have hle := hpart.le
    exact ⟨hpart.allows h, by omega⟩
  elements := by
    intro d u elem hpart he
    refine ⟨fun k hk => ?_, fun k l hkl _ => ?_⟩
    · have hle := hpart.le
      have hin := element_le he hk
      omega
    · have hapart : k * stride elem + packedSize elem ≤ l * stride elem := elements_apart hkl
      omega

/-- **Uniform layout.** Every uniform has one offset, the first is zero, and each is the least that the rules allow behind
the uniform before it. No two uniforms overlap, what is inside a uniform stays in its words and keeps to the rules, and
there are words enough for the unpacked value. -/
theorem offsets_packed (ts : List Ty) :
    Placed 0 ts (offsets ts) ∧ (ts ≠ [] → (offsets ts).head? = some 0) ∧
      ∀ (i : Nat) (t : Ty) (o : Nat), ts[i]? = some t → (offsets ts)[i]? = some o → Allows t o ∧ Holds t o := by
  have hplaced := offsetsFrom_placed 0 ts
  refine ⟨hplaced, fun hne => ?_, fun i t o ht ho => ?_⟩
  · cases ts with
    | nil => exact absurd rfl hne
    | cons t ts =>
      -- word zero starts a register, so nothing keeps a value from it
      have hzero : place t 0 ≤ 0 := (place_isLeast t 0).2 ⟨le_rfl, allows_of_mod_eq_zero t rfl⟩
      rw [offsets, offsetsFrom, List.head?_cons, Nat.le_zero.mp hzero]
  · have hallows : Allows t o := (hplaced.least i t o ht ho).1.2
    exact ⟨hallows, hallows.holds⟩

/-- A scalar fills the register that a matrix leaves open. -/
theorem offsets_packed_matrix :
    offsets [.float, .basic .mat3, .float, .basic .vec2] = [0, 4, 15, 16] ∧
    Placed 0 [.float, .basic .mat3, .float, .basic .vec2] [0, 4, 15, 16] ∧ Allows .float 15 ∧ Holds .float 15 := by
  have hoffsets : offsets [.float, .basic .mat3, .float, .basic .vec2] = [0, 4, 15, 16] := by decide
  obtain ⟨hplaced, -, hall⟩ := offsets_packed [.float, .basic .mat3, .float, .basic .vec2]
  rw [hoffsets] at hplaced hall
  exact ⟨hoffsets, hplaced, hall 2 .float 15 rfl rfl⟩

end GameMedia.Shader.Layout
