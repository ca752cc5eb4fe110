import GameMedia.Proofs.Shader.Run
import GameMedia.Proofs.Shader.Typing

/-!
# Open scopes

The scopes that are open at a time number their variables without gaps: each begins where the one around it ends, so a
number stands for one open variable at most. While a body is checked, an open scope only gets longer. Marks of use
are the one thing that changes in place, and no rule but the last looks at them, so scopes are viewed without them.
-/

namespace GameMedia.Shader.Check

open List Option

variable {name : String} {v : Variable} {i k : Nat} {ss : List Scope} {s : Scope} {a : Added}

/-! ## Marks of use -/

def Variable.unmarked (v : Variable) : Variable :=
  match v.role with
  | .declared _ => { v with role := .declared false }
  | _ => v

@[simp] theorem Variable.unmarked_name (v : Variable) : v.unmarked.name = v.name := by
  unfold unmarked
  split <;> rfl

@[simp] theorem Variable.unmarked_ty (v : Variable) : v.unmarked.ty = v.ty := by
  unfold unmarked
  split <;> rfl

theorem Variable.unmarked_role_eq_counter (v : Variable) : v.unmarked.role = .counter ↔ v.role = .counter := by
  unfold unmarked
  split <;> simp_all

theorem Variable.unmarked_role_eq_param (v : Variable) (b : Bool) :
    v.unmarked.role = .param b ↔ v.role = .param b := by
  unfold unmarked
  split <;> simp_all

namespace Scope

def unmarked (s : Scope) : Scope := { s with vars := s.vars.map Variable.unmarked }

@[simp] theorem unmarked_base (s : Scope) : s.unmarked.base = s.base := rfl

@[simp] theorem unmarked_stop (s : Scope) : s.unmarked.stop = s.stop := by simp [unmarked, stop]

@[simp] theorem unmarked_findVar? (s : Scope) (name : String) : s.unmarked.findVar? name = s.findVar? name := by
  simp [unmarked, findVar?, ← map_reverse, takeWhile_map, Function.comp_def]

@[simp] theorem unmarked_findConst? (s : Scope) (name : String) : s.unmarked.findConst? name = s.findConst? name := rfl

@[simp] theorem unmarked_localTypes (s : Scope) : s.unmarked.localTypes = s.localTypes := by
  simp [unmarked, localTypes, ← map_drop, Variable.unmarked_role_eq_counter]

/-- What changes no more than the mark of one variable is not seen. -/
theorem map_unmarked_modify (hf : ∀ v, (f v).unmarked = v.unmarked) (vs : List Variable) (i : Nat) :
    (vs.modify i f).map Variable.unmarked = vs.map Variable.unmarked := by
  refine ext_getElem? fun j => ?_
  rw [List.getElem?_map, List.getElem?_map, List.getElem?_modify]
  cases vs[j]? with
  | none => rfl
  | some v =>
    by_cases hij : i = j
    · simp [hij, hf]
    · simp [hij]

@[simp] theorem unmarked_markUsed (s : Scope) (i : Nat) : (s.markUsed i).unmarked = s.unmarked := by
  refine congrArg (fun vs => { s with vars := vs }) (map_unmarked_modify (fun v => ?_) s.vars i)
  cases hr : v.role <;> simp [Variable.unmarked, hr]

end Scope

theorem map_unmarked_useVar (name : String) (ss : List Scope) :
    (useVar name ss).map Scope.unmarked = ss.map Scope.unmarked := by
  induction ss with
  | nil => rfl
  | cons s ss ih =>
    unfold useVar
    split
    · simp
    · split
      · rfl
      · simp [ih]

theorem lookupVar?_map_unmarked (name : String) (ss : List Scope) :
    lookupVar? name (ss.map Scope.unmarked) = (lookupVar? name ss).map fun p => (p.1, p.2.unmarked) := by
  induction ss with
  | nil => rfl
  | cons s ss ih =>
    simp only [map_cons, lookupVar?, Scope.unmarked_findVar?, Scope.unmarked_findConst?, ih]
    split
    · simp [Scope.unmarked, Function.comp_def]
    · split <;> rfl

/-- The open scopes without marks of use. -/
def State.view (st : State) : List Scope := st.scopes.map Scope.unmarked

theorem State.view_def (st : State) : st.view = st.scope.unmarked :: st.outer.map Scope.unmarked := rfl

@[simp] theorem State.view_ne_nil (st : State) : st.view ≠ [] := by simp [State.view_def]

@[simp] theorem State.view_with_out (st : State) (cs : List Code.Stmt) : State.view { st with out := cs } = st.view := rfl

theorem findLocal?_view (h : findLocal? name env st = .ok (r, st')) :
    lookupVar? name st.view = r.map (fun p => (p.1, p.2.unmarked)) ∧ st.out = st'.out ∧ st'.view = st.view := by
  obtain ⟨rfl, hout, hs⟩ := findLocal?_ok h
  refine ⟨lookupVar?_map_unmarked name st.scopes, hout, ?_⟩
  rcases hs with hs | hs
  · rw [State.view, ← hs, ← State.view]
  · rw [State.view, ← hs, map_unmarked_useVar, ← State.view]

/-! ## Growth -/

/-- What the innermost scope gets. -/
structure Added where
  vars : List Variable := []
  consts : List NamedConst := []
  types : List (String × Ty) := []

namespace Added

def append (a b : Added) : Added := ⟨a.vars ++ b.vars, a.consts ++ b.consts, a.types ++ b.types⟩

/-- Only variables without a name in the source. -/
structure Temps (a : Added) : Prop where
  vars : ∀ v ∈ a.vars, v.role = .temporary
  consts : a.consts = []
  types : a.types = []

theorem temps_empty : Temps {} := ⟨by simp, rfl, rfl⟩

theorem Temps.append (ha : a.Temps) (hb : b.Temps) : (a.append b).Temps where
  vars := by
    intro v hv
    rcases mem_append.mp hv with hv | hv
    · exact ha.vars v hv
    · exact hb.vars v hv
  consts := by rw [Added.append, ha.consts, hb.consts]; rfl
  types := by rw [Added.append, ha.types, hb.types]; rfl

end Added

def Scope.add (s : Scope) (a : Added) : Scope :=
  { s with vars := s.vars ++ a.vars, consts := s.consts ++ a.consts, types := s.types ++ a.types }

/-- The scopes with more in the innermost one. -/
def grow (a : Added) : List Scope → List Scope
  | [] => []
  | s :: ss => s.add a :: ss

@[simp] theorem grow_empty (ss : List Scope) : grow {} ss = ss := by
  cases ss with
  | nil => rfl
  | cons s ss => simp [grow, Scope.add]

@[simp] theorem grow_grow (a b : Added) (ss : List Scope) : grow b (grow a ss) = grow (a.append b) ss := by
  cases ss with
  | nil => rfl
  | cons s ss => simp [grow, Scope.add, Added.append]

/-- The number that the next variable gets. -/
def stop : List Scope → Nat
  | [] => 0
  | s :: _ => s.stop

theorem State.stop_view (st : State) : stop st.view = st.scope.stop := Scope.unmarked_stop st.scope

theorem stop_le_grow (a : Added) (ss : List Scope) : stop ss ≤ stop (grow a ss) := by
  cases ss with
  | nil => exact le_rfl
  | cons s ss => simp [stop, grow, Scope.add, Scope.stop]

theorem declare_view (h : declare v env st = .ok (i, st')) :
    i = stop st.view ∧ st'.view = grow { vars := [v.unmarked] } st.view ∧ st'.out = st.out := by
  obtain ⟨rfl, rfl⟩ := declare_ok h
  exact ⟨(State.stop_view st).symm, by simp [State.view_def, grow, Scope.add, Scope.unmarked], rfl⟩

/-! ## Numbers -/

def numbered? : List Scope → Nat → Option Variable
  | [], _ => none
  | s :: ss, i => if s.base ≤ i then s.vars[i - s.base]? else numbered? ss i

/-- Each scope begins where the one around it ends. -/
def Nested : List Scope → Prop
  | [] => False
  | [s] => s.base = 0
  | s :: o :: ss => s.base = o.stop ∧ Nested (o :: ss)

theorem Nested.grow (h : Nested ss) (a : Added) : Nested (grow a ss) := by
  match ss, h with
  | [s], h | s :: o :: ss, h => exact h

theorem Nested.inner (h : Nested ss) : Nested ({ base := stop ss } :: ss) := by
  match ss, h with
  | s :: ss, h => exact ⟨rfl, h⟩

theorem Nested.tail (h : Nested (s :: ss)) (hne : ss ≠ []) : s.base = stop ss ∧ Nested ss := by
  match ss, h with
  | [], _ => exact absurd rfl hne
  | o :: ss, h => exact h

theorem Nested.lt_stop (h : Nested ss) (hv : numbered? ss i = some v) : i < stop ss := by
  induction ss with
  | nil => cases hv
  | cons s ss ih =>
    unfold numbered? at hv
    split at hv
    · have hlt := (List.getElem?_eq_some_iff.mp hv).1
      simp only [stop, Scope.stop]
      omega
    -- a variable further out ends before this scope begins
    · by_cases hne : ss = []
      · subst hne
        cases hv
      · have hlt := ih (h.tail hne).2 hv
        simp only [stop, Scope.stop]
        omega

theorem Nested.numbered?_of_lookup (h : Nested ss) (hv : lookupVar? name ss = some (i, v)) :
    numbered? ss i = some v := by
  induction ss with
  | nil => cases hv
  | cons s ss ih =>
    unfold lookupVar? at hv
    split at hv
    · obtain ⟨w, hw, he⟩ := map_eq_some_iff.mp hv
      obtain ⟨rfl, rfl⟩ := Prod.mk.inj he
      rw [numbered?, if_pos (Nat.le_add_right _ _), Nat.add_sub_cancel_left]
      exact hw
    · split at hv
      · cases hv
      · by_cases hne : ss = []
        · subst hne
          cases hv
        -- found further out, so the number lies below where this scope begins
        · obtain ⟨hb, hn⟩ := h.tail hne
          have hi := ih hn hv
          have hlt := hn.lt_stop hi
          rw [numbered?, if_neg (by omega)]
          exact hi

/-- What a scope gets later leaves its numbers as they are. -/
theorem numbered?_grow (a : Added) (h : numbered? ss i = some v) : numbered? (grow a ss) i = some v := by
  cases ss with
  | nil => cases h
  | cons s ss =>
    unfold numbered? at h
    rw [grow, numbered?]
    split at h
    · next hb =>
      rw [if_pos (show (s.add a).base ≤ i from hb)]
      exact List.getElem?_append_left (List.getElem?_eq_some_iff.mp h).1 ▸ h
    · next hb =>
      rw [if_neg (show ¬(s.add a).base ≤ i from hb)]
      exact h

theorem numbered?_grow_new (hne : ss ≠ []) (a : Added) (k : Nat) :
    numbered? (grow a ss) (stop ss + k) = a.vars[k]? := by
  cases ss with
  | nil => exact absurd rfl hne
  | cons s ss =>
    rw [grow, numbered?, if_pos (by simp only [stop, Scope.stop, Scope.add]; omega)]
    have hk : stop (s :: ss) + k - (s.add a).base = s.vars.length + k := by
      simp only [stop, Scope.stop, Scope.add]
      omega
    rw [hk, Scope.add, List.getElem?_append_right (Nat.le_add_right _ _), Nat.add_sub_cancel_left]

/-! ## Names -/

theorem Scope.findVar?_concat (s : Scope) (vs : List Variable) (v : Variable) (name : String) :
    Scope.findVar? { s with vars := vs ++ [v] } name =
      if v.name = name then some vs.length else Scope.findVar? { s with vars := vs } name := by
  simp only [findVar?, reverse_append, reverse_cons, reverse_nil, nil_append, cons_append,
    takeWhile_cons, length_append, length_singleton]
  -- the search runs backwards, so it meets the new variable first
  by_cases h : v.name = name
  · simp [h]
  · simp only [bne_iff_ne, ne_eq, h, not_false_eq_true, if_true, length_cons, if_false, Nat.add_lt_add_iff_right]
    split
    · congr 1
      omega
    · rfl

theorem Scope.findVar?_append (h : Scope.findVar? { s with vars := s.vars ++ new } name = some k) :
    s.findVar? name = some k ∨ ∃ j v, k = s.vars.length + j ∧ new[j]? = some v ∧ v.name = name := by
  induction new using reverseRecOn with
  | nil =>
    rw [append_nil] at h
    exact .inl h
  | append_singleton new v ih =>
    rw [← append_assoc, findVar?_concat] at h
    split at h
    · next hv =>
      refine .inr ⟨new.length, v, ?_, by simp, hv⟩
      simpa using h.symm
    · rcases ih h with h | ⟨j, w, hk, hj, hw⟩
      · exact .inl h
      · refine .inr ⟨j, w, hk, ?_, hw⟩
        exact List.getElem?_append_left (List.getElem?_eq_some_iff.mp hj).1 ▸ hj

theorem Scope.findVar?_append_eq_none (h : Scope.findVar? { s with vars := s.vars ++ new } name = none) :
    s.findVar? name = none := by
  induction new using reverseRecOn with
  | nil =>
    rw [append_nil] at h
    exact h
  | append_singleton new v ih =>
    rw [← append_assoc, findVar?_concat] at h
    split at h
    · cases h
    · exact ih h

theorem Scope.findVar?_lt (h : s.findVar? name = some k) : k < s.vars.length := by
  simp only [findVar?] at h
  split at h
  · have := some.inj h
    omega
  · cases h

theorem Scope.findVar?_name (h : s.findVar? name = some k) (hv : s.vars[k]? = some v) : v.name = name := by
  obtain ⟨base, vars, consts, types, count⟩ := s
  induction vars using reverseRecOn with
  | nil => cases hv
  | append_singleton vars w ih =>
    rw [findVar?_concat { base, vars, consts, types, paramCount := count }] at h
    split at h
    · next hw =>
      cases h
      rw [List.getElem?_append_right le_rfl, Nat.sub_self] at hv
      exact some.inj hv ▸ hw
    · exact ih h (List.getElem?_append_left (findVar?_lt h) ▸ hv)

/-- New variables of other names leave the place of a name as it is. -/
theorem Scope.findVar?_add_of_ne (s : Scope) (h : ∀ v ∈ a.vars, v.name ≠ name) :
    (s.add a).findVar? name = s.findVar? name := by
  obtain ⟨vars, consts, types⟩ := a
  induction vars using reverseRecOn with
  | nil => simp [Scope.add, findVar?]
  | append_singleton vars v ih =>
    rw [forall_mem_append, forall_mem_singleton] at h
    have hlast := findVar?_concat s (s.vars ++ vars) v name
    rw [if_neg h.2, append_assoc] at hlast
    exact hlast.trans (ih h.1)

theorem lookupVar?_name (h : lookupVar? name ss = some (i, v)) : v.name = name := by
  induction ss with
  | nil => cases h
  | cons s ss ih =>
    unfold lookupVar? at h
    split at h
    · next k hk =>
      obtain ⟨w, hw, he⟩ := map_eq_some_iff.mp h
      obtain ⟨-, rfl⟩ := Prod.mk.inj he
      exact Scope.findVar?_name hk hw
    · split at h
      · cases h
      · exact ih h

/-- A name means what it meant if what is new are variables of other names. -/
theorem lookupVar?_grow_of_ne (hc : a.consts = []) (h : ∀ v ∈ a.vars, v.name ≠ name) (ss : List Scope) :
    lookupVar? name (grow a ss) = lookupVar? name ss := by
  cases ss with
  | nil => rfl
  | cons s ss =>
    have hconst : (s.add a).findConst? name = s.findConst? name := by simp [Scope.findConst?, Scope.add, hc]
    rw [grow, lookupVar?, lookupVar?, s.findVar?_add_of_ne h, hconst]
    cases hi : s.findVar? name with
    | none => rfl
    | some i =>
      have hget : (s.add a).vars[i]? = s.vars[i]? := List.getElem?_append_left (Scope.findVar?_lt hi)
      dsimp only
      rw [hget]
      rfl

theorem lookupVar?_grow_new (hne : ss ≠ []) (v : Variable) :
    lookupVar? v.name (grow { vars := [v] } ss) = some (stop ss, v) := by
  cases ss with
  | nil => exact absurd rfl hne
  | cons s ss =>
    have hi : (s.add { vars := [v] }).findVar? v.name = some s.vars.length := by
      have hlast := Scope.findVar?_concat s s.vars v v.name
      rw [if_pos rfl] at hlast
      exact hlast
    have hget : (s.add { vars := [v] }).vars[s.vars.length]? = some v := by simp [Scope.add]
    rw [grow, lookupVar?, hi]
    dsimp only
    rw [hget]
    rfl

/-- Variables without a name in the source do not change what names mean, except that they have a name themselves. -/
theorem lookupVar?_grow_temps (ha : a.Temps) (h : lookupVar? name (grow a ss) = some (i, v)) :
    lookupVar? name ss = some (i, v) ∨ (stop ss ≤ i ∧ v.role = .temporary) := by
  cases ss with
  | nil => cases h
  | cons s ss =>
    -- no constant is new, so none comes to hide the name
    have hconst : (s.add a).findConst? name = s.findConst? name := by
      simp [Scope.findConst?, Scope.add, ha.consts]
    have hvars : (s.add a).findVar? name = Scope.findVar? { s with vars := s.vars ++ a.vars } name := rfl
    rw [grow, lookupVar?, hconst, hvars] at h
    cases hf : Scope.findVar? { s with vars := s.vars ++ a.vars } name with
    | none =>
      rw [hf] at h
      rw [lookupVar?, Scope.findVar?_append_eq_none hf]
      exact .inl h
    | some k =>
      rw [hf] at h
      obtain ⟨w, hw, he⟩ := map_eq_some_iff.mp h
      obtain ⟨rfl, rfl⟩ := Prod.mk.inj he
      rcases Scope.findVar?_append hf with hold | ⟨j, u, rfl, hj, -⟩
      · refine .inl ?_
        rw [Scope.add, List.getElem?_append_left (Scope.findVar?_lt hold)] at hw
        rw [lookupVar?, hold]
        exact map_eq_some_iff.mpr ⟨w, hw, rfl⟩
      · refine .inr ⟨by simp only [stop, Scope.stop, Scope.add]; omega, ?_⟩
        rw [Scope.add, List.getElem?_append_right (Nat.le_add_right _ _), Nat.add_sub_cancel_left, hj] at hw
        exact some.inj hw ▸ ha.vars u (mem_of_getElem? hj)

end GameMedia.Shader.Check
