import GameMedia.Proofs.Shader.Reports

/-!
# Read-only variables

What is given to an entry point is never written, and neither is the counter of a loop. The checker refuses such a store
where the name of the variable stands, in one of several places. In the code there is only one place to look at: the
number that a target is a part of. A statement spares the open variables that are read-only, whatever it writes, and goes
on to do so where more is in scope. So it is enough to know at the beginning of a body which variables are read-only.
-/

namespace GameMedia.Shader

open List

namespace Check

/-! ## Scopes -/

def Keeps (ss ss' : List Scope) : Prop := ∀ i v, numbered? ss i = some v → numbered? ss' i = some v

section

variable {S : Code.Setting} {ss ss' ss'' : List Scope} {s : Code.Stmt}

theorem Keeps.trans (h : Keeps ss ss') (h' : Keeps ss' ss'') : Keeps ss ss'' := fun i v hv => h' i v (h i v hv)

theorem keeps_grow (a : Added) (ss : List Scope) : Keeps ss (grow a ss) := fun _ _ hv => numbered?_grow a hv

theorem keeps_opened (hn : Nested ss) : Keeps ss (opened ss) := fun _ _ hv => numbered?_cons hn rfl hv

theorem keeps_head (hn : Nested ss) (name : String) (pos : Pos) (ty : Ty) :
    Keeps ss (headScope name pos ty ss :: ss) :=
  fun _ _ hv => numbered?_cons hn rfl hv

theorem nested_head (hn : Nested ss) (name : String) (pos : Pos) (ty : Ty) :
    Nested (headScope name pos ty ss :: ss) := by
  match ss, hn with
  | s :: ss, hn => exact ⟨rfl, hn⟩

/-! ## Statements that spare what is read-only -/

/-- What a statement writes are variables and parts of variables. Of those in scope it writes no input of an entry point
and no counter. -/
def Spares (S : Code.Setting) (ss : List Scope) (s : Code.Stmt) : Prop :=
  ∀ e ∈ s.targets S, ∃ i, e.root? = some i ∧ ∀ v, numbered? ss i = some v → v.role ≠ .param true ∧ v.role ≠ .counter

theorem Spares.of_keeps (h : Spares S ss' s) (hk : Keeps ss ss') : Spares S ss s := by
  intro e he
  obtain ⟨i, hi, hrole⟩ := h e he
  exact ⟨i, hi, fun v hv => hrole v (hk i v hv)⟩

theorem spares_of_targets (h : s.targets S = []) : Spares S ss s := by
  intro e he
  rw [h] at he
  cases he

theorem Site.Writes.spares {K : Site} (h : K.Writes ss s) : Spares K.env.setting ss s := by
  intro e he
  obtain ⟨i, hi, hroot⟩ := h.typed.written h.simple h.rooted he
  obtain ⟨w, hw, hrole⟩ := h.writable i hi
  refine ⟨i, hroot, fun v hv => ?_⟩
  obtain rfl := Option.some.inj (hw.symm.trans hv)
  exact hrole

/-- The calls in a condition have no outputs. -/
theorem branch_spares
    (h : c.type? S Γ = some u) : Spares S ss (.branch c t f) := by
  refine spares_of_targets ?_
  rw [Code.Stmt.targets, Code.Stmt.stores, nil_append, flatMap_eq_nil_iff]
  intro n hn
  rcases Code.type?_part c h n (by simpa [Code.Stmt.ownNodes, Code.Stmt.own] using hn) with hv | hname
  · exact Code.outArgs_of_type? hv
  · exact hname.outArgs

theorem loop_spares (hn : Nested ss) (hi : c.index = stop ss) : Spares S ss (.loop c b) := by
  intro e he
  obtain rfl := mem_singleton.mp he
  refine ⟨c.index, rfl, fun v hv => ?_⟩
  have hlt := hn.lt_stop hv
  omega

end

section

variable {ss ss' : List Scope} {cs : List Code.Stmt}

theorem Site.Written.spares {K : Site} (h : Site.Written K chain ss cs c) :
    ∀ x ∈ Code.stmtsPlaces chain cs, Spares K.env.setting ss x.2 := by
  have hcs := h.1
  clear h
  induction cs with
  | nil => exact nofun
  | cons s cs ih =>
    rw [forall_mem_cons] at hcs
    rw [Code.stmtsPlaces, hcs.1.simple.places chain]
    exact forall_mem_cons.mpr ⟨hcs.1.spares, ih hcs.2⟩

/-- **Statements spare what is read-only where they begin**, at any depth. -/
theorem Lowers.spares (h : Lowers Site.Written env inLoop chain ss S ss' cs) (hn : Nested ss) :
    ∀ x ∈ Code.stmtsPlaces chain cs, Spares env.setting ss x.2 := by
  induction h with
  | nil => exact nofun
  | @single _ _ ss _ _ _ a _ _ _ _ _ hw _ ih =>
    have hk := keeps_grow a ss
    rw [Code.stmtsPlaces_append]
    refine forall_mem_append.mpr ⟨fun x hx => ?_, fun x hx => ?_⟩
    · exact (hw.spares x hx).of_keeps hk
    · exact (ih (hn.grow a) x hx).of_keeps hk
  | group _ ih => exact ih hn
  | block _ _ ihb ih =>
    refine forall_mem_append.mpr ⟨forall_mem_cons.mpr ⟨spares_of_targets rfl, fun x hx => ?_⟩, ih hn⟩
    exact (ihb hn.inner x hx).of_keeps (keeps_opened hn)
  | @cond _ _ ss _ _ _ _ _ _ _ a _ _ _ _ _ _ _ hw _ _ _ iht ih =>
    have hk := keeps_grow a ss
    have hna := hn.grow a
    rw [Code.stmtsPlaces_append]
    refine forall_mem_append.mpr ⟨fun x hx => (hw.spares x hx).of_keeps hk, forall_mem_append.mpr
      ⟨forall_mem_cons.mpr ⟨branch_spares (hw.2 _ rfl).typed, fun x hx => ?_⟩, fun x hx => ?_⟩⟩
    · exact (iht hna.inner x hx).of_keeps (hk.trans (keeps_opened hna))
    · exact (ih hna x hx).of_keeps hk
  | @condElse _ _ ss _ _ _ _ _ _ _ _ a _ _ _ _ _ _ _ _ _ hw _ _ _ _ iht ihf ih =>
    have hk := keeps_grow a ss
    have hna := hn.grow a
    have hko := hk.trans (keeps_opened hna)
    rw [Code.stmtsPlaces_append]
    refine forall_mem_append.mpr ⟨fun x hx => (hw.spares x hx).of_keeps hk, forall_mem_append.mpr
      ⟨forall_mem_cons.mpr ⟨branch_spares (hw.2 _ rfl).typed, forall_mem_append.mpr
        ⟨fun x hx => ?_, fun x hx => ?_⟩⟩, fun x hx => ?_⟩⟩
    · exact (iht hna.inner x hx).of_keeps hko
    · exact (ihf hna.inner x hx).of_keeps hko
    · exact (ih hna x hx).of_keeps hk
  | condInit _ _ ihb ih =>
    refine forall_mem_append.mpr ⟨forall_mem_cons.mpr ⟨spares_of_targets rfl, fun x hx => ?_⟩, ih hn⟩
    exact (ihb hn.inner x hx).of_keeps (keeps_opened hn)
  | @loop _ _ ss _ _ namePos _ name _ _ _ _ _ _ a _ _ c _ _ _ _ _ _ hi hhead _ _ ihb ih =>
    subst hhead
    have hk := keeps_grow a ss
    have hna := hn.grow a
    have hnh := nested_head hna name namePos c.ty
    -- the body begins in a scope inside the one of the head
    have hko := (hk.trans (keeps_head hna name namePos c.ty)).trans (keeps_opened hnh)
    refine forall_mem_append.mpr ⟨forall_mem_cons.mpr ⟨spares_of_targets rfl, ?_⟩, fun x hx => ?_⟩
    · refine forall_mem_append.mpr ⟨forall_mem_cons.mpr ⟨?_, fun x hx => ?_⟩, nofun⟩
      · exact (loop_spares hna hi).of_keeps hk
      · exact (ihb hnh.inner x hx).of_keeps hko
    · exact (ih hna x hx).of_keeps hk

end

/-! ## Bodies -/

section

variable {g : Globals} {kind : BodyKind} {sig : Signature} {S : List Surface.Stmt} {b : Code.Block}

theorem numbered?_input (readOnly : Bool) (hi : i < sig.ins.length) :
    ∃ v, numbered? [bodyScope sig readOnly] i = some v ∧ v.role = .param readOnly := by
  have hp : sig.ins[i]? = some sig.ins[i] := List.getElem?_eq_getElem hi
  refine ⟨⟨sig.ins[i].name, sig.ins[i].ty, sig.ins[i].pos, .param readOnly⟩, ?_, rfl⟩
  simp only [numbered?, bodyScope, Nat.zero_le, if_true, Nat.sub_zero]
  rw [List.getElem?_append_left (by simpa using hi)]
  simp [hp]

/-- **A body writes variables and parts of them**, and in an entry point none of its inputs. -/
theorem IsBody.targets (h : IsBody g kind sig S b) (hx : x ∈ b.places [])
    (he : e ∈ x.2.targets (bodyEnv g kind sig).setting) :
    ∃ i, e.root? = some i ∧ (kind ≠ .helper → sig.ins.length ≤ i) := by
  obtain ⟨s, cs, rfl, hl⟩ := h
  rw [Code.Block.places, Code.stmtsPlaces_append] at hx
  rcases mem_append.mp hx with hx | hx
  · obtain ⟨i, hle, hinit⟩ := zeroOutputs_places x hx
    rw [hinit] at he
    obtain rfl := mem_singleton.mp he
    exact ⟨i, rfl, fun _ => hle⟩
  · obtain ⟨i, hi, hrole⟩ := (hl _).spares rfl x hx e he
    refine ⟨i, hi, fun hkind => ?_⟩
    have hentry : (kind != .helper) = true := bne_iff_ne.mpr hkind
    rw [hentry] at hrole
    -- an input of an entry point is read-only
    by_contra hlt
    obtain ⟨v, hv, hparam⟩ := numbered?_input true (not_le.mp hlt)
    exact (hrole v hv).1 hparam

end

end Check

/-! ## Accepted sources -/

/-- **Read-only storage is never written.** Whatever the statements of an accepted source write, at any depth, is a local
variable or a part of one, so never a uniform or a texture. In the vertex entry point it is no attribute, and in the
fragment entry point neither the position nor a varying. -/
theorem inputs_never_written {options : CompileOptions} {source : String} {p : Program}
    (h : compile options source = .ok p) :
    ∀ b ∈ p.bodies, ∀ x ∈ b.1.top.places [], ∀ e ∈ x.2.targets (p.setting true b.1.kind b.2),
      ∃ i, e.root? = some i ∧ (b.1.kind = .vertex → p.attributes.length ≤ i) ∧
        (b.1.kind = .fragment → p.varyings.length < i) := by
  intro b hb x hx e he
  obtain ⟨file, g, cs, -, hp⟩ := Check.compile_assembly h
  obtain ⟨f, -, sig, hbody, hchecks⟩ := hp.bodyOf hb
  have hprod := hp.produces
  rw [← hprod.setting hbody] at he
  obtain ⟨i, hi, hle⟩ := hbody.lowered.targets hx he
  refine ⟨i, hi, fun hk => ?_, fun hk => ?_⟩
  · obtain ⟨-, -, hins, -⟩ := hprod.declared.vertex sig (hchecks.vertex hk)
    rw [hprod.attributes, ← hins, List.length_map]
    exact hle (by rw [hk]; nofun)
  · obtain ⟨-, -, -, hins, -⟩ := hprod.declared.fragment sig (hchecks.fragment hk)
    have hlen := congrArg List.length hins
    rw [List.length_map, List.length_cons] at hlen
    rw [hprod.varyings]
    have hinputs := hle (by rw [hk]; nofun)
    omega

/-- An entry point that writes its outputs as wholes and in parts. -/
def vertexSample : String := "package main
func f(v vec2) (a, b vec2) {
	return v, v
}
func Vertex(q vec4, u vec2) (p vec4, c vec2) {
	(p).xy, c = f(u)
	p[2]++
	return
}
"

set_option maxRecDepth 2000 in
theorem vertexSample_inputs_never_written : ∃ p, compile {} vertexSample = .ok p ∧
    (p.attributes.length = 2 ∧ p.varyings.length = 1) ∧
    ∀ b ∈ p.bodies, ∀ x ∈ b.1.top.places [], ∀ e ∈ x.2.targets (p.setting true b.1.kind b.2),
      ∃ i, e.root? = some i ∧ (b.1.kind = .vertex → 2 ≤ i) ∧ (b.1.kind = .fragment → 1 < i) := by
  obtain ⟨p, hp, hlen⟩ : ∃ p, compile {} vertexSample = .ok p ∧ p.attributes.length = 2 ∧ p.varyings.length = 1 :=
    exists_compile (by decide +kernel)
  have hwritten := inputs_never_written hp
  rw [hlen.1, hlen.2] at hwritten
  exact ⟨p, hp, hlen, hwritten⟩

end GameMedia.Shader
