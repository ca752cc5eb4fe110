import Mathlib
import GameMedia.Audio.FrameDecoder

/-!
# Checked accesses

The definitions of the decoder are total: a place that a table does not have gives a default. To say that this never
happens, the decoder is written once more with accesses that are checked, so that a single one out of range gives nothing
at all. This module has the accesses. Reading bits may fail with an error besides, which is something else.
-/

namespace GameMedia.Audio

open List hiding Vector
open Option

section

variable {α β : Type} {n start i count : Nat} {a : Array α} {v : Vector α n} {xs : List α}

/-! ## Tables -/

theorem some_bind (a : α) (f : α → Option β) : (some a >>= f) = f a := rfl

theorem getElem?_get (v : Vector α n) (i : Fin n) : v[i.val]? = some (v.get i) := Vector.getElem?_eq_getElem i.isLt

theorem array_getElem? (h : i < a.size) (d : α) : a[i]? = some (a.getD i d) := by
  rw [Array.getD_eq_getD_getElem?, Array.getElem?_eq_getElem h, getD_some]

theorem list_getElem? (h : i < xs.length) (d : α) : xs[i]? = some (xs.getD i d) := by
  rw [getD_eq_getElem _ _ h, List.getElem?_eq_getElem h]

def slice? (a : Array α) (start stop : Nat) : Option (Array α) :=
  if start ≤ stop ∧ stop ≤ a.size then some (a.extract start stop) else none

theorem slice?_eq (hstart : start ≤ stop) (hstop : stop ≤ a.size) :
    slice? a start stop = some (a.extract start stop) := if_pos ⟨hstart, hstop⟩

/-- A difference that is not negative. -/
def minus? (a b : Nat) : Option Nat := if b ≤ a then some (a - b) else none

theorem minus?_eq {a b : Nat} (h : b ≤ a) : minus? a b = some (a - b) := if_pos h

/-- The table with another value at a place. -/
def write? (v : Vector α n) (i : Nat) (a : α) : Option (Vector α n) := if h : i < n then some (v.set i a) else none

theorem write?_eq (h : i < n) (a : α) : write? v i a = some (v.set i a) := dif_pos h

/-- The table with some places written one after another. -/
def writes? (v : Vector α n) : List (Nat × α) → Option (Vector α n)
  | [] => some v
  | (i, a) :: ws => (write? v i a).bind (writes? · ws)

theorem writes?_append (v : Vector α n) (ws ws' : List (Nat × α)) :
    writes? v (ws ++ ws') = writes? v ws >>= fun v => writes? v ws' := by
  induction ws generalizing v with
  | nil => rfl
  | cons w ws ih =>
    change (write? v w.1 w.2).bind (writes? · (ws ++ ws')) = ((write? v w.1 w.2).bind (writes? · ws)).bind _
    rw [bind_assoc]
    exact congrArg _ (funext ih)

/-- **Writes whose places say their values can be made in any order.** -/
theorem writes?_eq (v : Vector α n) (value : Nat → α) (hrange : ∀ w ∈ ws, w.1 < n)
    (hvalue : ∀ w ∈ ws, w.2 = value w.1) :
    writes? v ws = some (Vector.ofFn fun i => if i.val ∈ ws.map Prod.fst then value i else v.get i) := by
  induction ws generalizing v with
  | nil =>
    refine congrArg some (Vector.ext fun i hi => ?_)
    rw [Vector.getElem_ofFn, map_nil, if_neg (not_mem_nil)]
    rfl
  | cons w ws ih =>
    obtain ⟨i, a⟩ := w
    have hi := hrange (i, a) mem_cons_self
    have ha := hvalue (i, a) mem_cons_self
    rw [writes?, write?_eq hi, bind_some, ih _ (fun w hw => hrange w (mem_cons_of_mem _ hw))
      fun w hw => hvalue w (mem_cons_of_mem _ hw)]
    refine congrArg some (Vector.ext fun j hj => ?_)
    rw [Vector.getElem_ofFn, Vector.getElem_ofFn, map_cons]
    by_cases hmem : j ∈ ws.map Prod.fst
    · rw [if_pos hmem, if_pos (mem_cons_of_mem _ hmem)]
    · rw [if_neg hmem]
      change (v.set i a)[j] = _
      rw [Vector.getElem_set]
      by_cases hij : i = j
      · subst hij
        rw [if_pos rfl, if_pos mem_cons_self]
        exact ha
      · rw [if_neg hij, if_neg]
        · rfl
        · rw [mem_cons, not_or]
          exact ⟨fun h => hij h.symm, hmem⟩

/-- The table with a list of values from a place on, as far as there is room. -/
def laid (v : Vector α n) (start : Nat) (xs : List α) : Vector α n :=
  Vector.ofFn fun i => if start ≤ i.val then xs.getD (i.val - start) (v.get i) else v.get i

theorem laid_nil (v : Vector α n) (start : Nat) : laid v start [] = v := by
  refine Vector.ext fun i hi => ?_
  rw [laid, Vector.getElem_ofFn]
  exact ite_self _

theorem laid_laid (v : Vector α n) (start : Nat) (xs ys : List α) :
    laid (laid v start xs) (start + xs.length) ys = laid v start (xs ++ ys) := by
  refine Vector.ext fun i hi => ?_
  simp only [laid, Vector.getElem_ofFn, Vector.get_ofFn]
  by_cases hbefore : start ≤ i
  · rw [if_pos hbefore, if_pos hbefore]
    by_cases hbehind : start + xs.length ≤ i
    · rw [if_pos hbehind, getD_append_right _ _ _ _ (by omega),
        getD_eq_default _ _ (by omega : xs.length ≤ i - start),
        Nat.sub_add_eq]
    · rw [if_neg hbehind, getD_append _ _ _ _ (by omega)]
  · rw [if_neg hbefore, if_neg hbefore, if_neg (by omega)]

/-- A list that is as long as the table is all that is in it. -/
theorem toArray_laid (v : Vector α n) (h : xs.length = n) : (laid v 0 xs).toArray = xs.toArray := by
  refine Array.ext (by rw [Vector.size_toArray, List.size_toArray, h]) fun i hi hi' => ?_
  rw [List.size_toArray] at hi'
  have hn : i < n := h ▸ hi'
  have hget : (laid v 0 xs)[i] = xs[i] := by
    rw [laid, Vector.getElem_ofFn, if_pos (Nat.zero_le _), Nat.sub_zero, getD_eq_getElem _ _ hi']
  exact hget

theorem toList_ofFn_getD (h : a.size = n) (d : α) : (Vector.ofFn fun i : Fin n => a.getD i d).toList = a.toList := by
  refine ext_getElem (by rw [Vector.length_toList, Array.length_toList, h]) fun i hi hi' => ?_
  rw [Array.length_toList] at hi'
  rw [Vector.getElem_toList, Vector.getElem_ofFn, Array.getElem_toList, Array.getD_eq_getD_getElem?,
    Array.getElem?_eq_getElem hi', getD_some]

theorem laid_cons (v : Vector α n) (start : Nat) (a : α) (xs : List α) :
    laid v start (a :: xs) = laid (laid v start [a]) (start + 1) xs := (laid_laid v start [a] xs).symm

theorem write?_laid (h : start < n) (a : α) : write? v start a = some (laid v start [a]) := by
  rw [write?_eq h]
  refine congrArg some (Vector.ext fun i hi => ?_)
  rw [Vector.getElem_set, laid, Vector.getElem_ofFn]
  by_cases hi' : start = i
  · subst hi'
    simp
  · rw [if_neg hi']
    by_cases hle : start ≤ i
    · have hpast : [a].length ≤ i - start := by
        rw [length_singleton]
        omega
      rw [if_pos hle, getD_eq_default _ _ hpast]
      rfl
    · rw [if_neg hle]
      rfl

/-- Values are laid by writes from place to place. -/
theorem writes?_zip (hxs : xs.length = count) (h : start + count ≤ n) :
    writes? v ((range' start count).zip xs) = some (laid v start xs) := by
  induction xs generalizing v start count with
  | nil =>
    subst hxs
    exact congrArg some (laid_nil v start).symm
  | cons a xs ih =>
    subst hxs
    rw [length_cons] at h
    rw [length_cons, range'_succ, zip_cons_cons, writes?, write?_laid (by omega), bind_some,
      ih rfl (by omega), laid_cons v start a xs]

theorem mapM_eq {l : List α} (h : ∀ a ∈ l, f a = some (value a)) :
    l.mapM f = some (l.map value) := by
  induction l with
  | nil => rfl
  | cons a l ih =>
    rw [mapM_cons, h a mem_cons_self, ih fun b hb => h b (mem_cons_of_mem _ hb)]
    rfl

/-- A loop whose states are known goes through them. -/
theorem foldlM_range (state : Nat → β) (h : ∀ k < count, f (state k) k = some (state (k + 1))) :
    (range count).foldlM f (state 0) = some (state count) := by
  induction count with
  | zero => rfl
  | succ count ih =>
    rw [range_succ, foldlM_append, ih fun k hk => h k (Nat.lt_succ_of_lt hk), some_bind, foldlM_cons,
      h count (Nat.lt_succ_self _)]
    rfl

def cell? {m : Nat} (table : Vector (Vector α m) n) (i j : Nat) : Option α := table[i]?.bind (·[j]?)

theorem cell?_eq (table : Vector (Vector α m) n) (hi : i < n) (hj : j < m) :
    cell? table i j = some table[i][j] := by
  rw [cell?, Vector.getElem?_eq_getElem hi, bind_some, Vector.getElem?_eq_getElem hj]

/-- A table of so many values that are each found. -/
def ofFn? (n : Nat) (f : Nat → Option α) : Option (Vector α n) := Vector.ofFnM fun i : Fin n => f i

theorem ofFn?_eq (h : ∀ i : Fin n, f i = some (value i)) :
    ofFn? n f = some (Vector.ofFn value) := by
  rw [ofFn?, funext h]
  exact Vector.ofFnM_pure

def sum? (n : Nat) (term : Nat → Option Float32) : Option Float32 :=
  Fin.foldlM n (fun acc i => (term i).map (acc + ·)) 0

theorem sum?_eq (value : Fin n → Float32) (h : ∀ i : Fin n, term i = some (value i)) :
    sum? n term = some (Transform.sum n value) := by
  have hterms : (fun (acc : Float32) (i : Fin n) => (term i).map (acc + ·)) = fun acc i => some (acc + value i) := by
    funext acc i
    rw [h i, map_some]
  rw [sum?, hterms]
  exact Fin.foldlM_pure

end

/-! ## Reading -/

abbrev CheckedRead : Type → Type := ExceptT AudioError (StateT BitReader Option)

namespace CheckedRead

open Huffman

variable {α β : Type} {x : CodeRead α} {a : α}

/-- What is read without access to a table. -/
def reading (x : CodeRead α) : CheckedRead α := fun r => some (x r)

def readingBits (x : BitRead α) : CheckedRead α := fun r => some (.ok (x r).1, (x r).2)

def need (x : Option α) : CheckedRead α := fun r => x.map fun a => (.ok a, r)

@[simp]
theorem need_some (a : α) : need (some a) = pure a := rfl

@[simp]
theorem reading_pure (a : α) : reading (pure a) = pure a := rfl

@[simp]
theorem reading_lift (x : BitRead α) : reading (liftM x) = readingBits x := rfl

@[simp]
theorem readingBits_pure (a : α) : readingBits (pure a) = pure a := rfl

@[simp]
theorem readingBits_bind (x : BitRead α) (f : α → BitRead β) :
    readingBits (x >>= f) = readingBits x >>= fun a => readingBits (f a) := rfl

theorem run_readingBits_bind (x : BitRead α) (f : α → CheckedRead β) (r : BitReader) :
    (readingBits x >>= f) r = f (x r).1 (x r).2 := rfl

theorem run_position_bind (f : Nat → CheckedRead β) (r : BitReader) :
    (readingBits BitRead.position >>= f) r = f r.pos r := rfl

theorem run_bind_ok {x : CheckedRead α} (h : x r = some (.ok a, r')) (f : α → CheckedRead β) :
    (x >>= f) r = f a r' := by
  change (x r).bind (fun p => ExceptT.bindCont f p.1 p.2) = _
  rw [h]
  rfl

theorem run_bind_error {x : CheckedRead α} (h : x r = some (.error e, r')) (f : α → CheckedRead β) :
    (x >>= f) r = some (.error e, r') := by
  change (x r).bind (fun p => ExceptT.bindCont f p.1 p.2) = _
  rw [h]
  rfl

theorem run_reading_error (h : x r = (.error e, r')) (f : α → CheckedRead β) :
    (reading x >>= f) r = some (.error e, r') := run_bind_error (congrArg some h) f

theorem run_reading_ok (h : x r = (.ok a, r')) (f : α → CheckedRead β) :
    (reading x >>= f) r = f a r' := run_bind_ok (congrArg some h) f

@[simp]
theorem reading_bind (x : CodeRead α) (f : α → CodeRead β) :
    reading (x >>= f) = reading x >>= fun a => reading (f a) := by
  funext r
  change some (ExceptT.bindCont f (x r).1 (x r).2) = _
  rcases h : x r with ⟨e | a, r'⟩
  · rw [run_reading_error h]
    rfl
  · rw [run_reading_ok h]
    rfl

theorem readingBits_congr {x : BitRead α} (P : α → Prop) (hP : ∀ r, P (x r).1)
    (h : ∀ a, P a → f a = g a) : readingBits x >>= f = readingBits x >>= g := by
  funext r
  rw [run_readingBits_bind, run_readingBits_bind, h _ (hP r)]

theorem reading_congr (P : α → Prop) (hP : ∀ r a, (x r).1 = .ok a → P a)
    (h : ∀ a, P a → f a = g a) : reading x >>= f = reading x >>= g := by
  funext r
  rcases hx : x r with ⟨e | a, r'⟩
  · rw [run_reading_error hx, run_reading_error hx]
  · rw [run_reading_ok hx, run_reading_ok hx, h a (hP r a (by rw [hx]))]

end CheckedRead

end GameMedia.Audio
