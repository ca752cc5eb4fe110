import GameMedia.Proofs.Shader.Lowering
import GameMedia.Shader.Compile

/-!
# Files

What a file that is accepted declares, and what its bodies become. The rounds of the check only add declarations, so
what holds for each one as it is added holds for all: types can be stored, and no two functions share a name. The
entry points then agree about what flows between them, and every body of the program is the lowering of the body of
one function of the file, in the scope of its parameters.
-/

namespace GameMedia.Shader.Check

open List Option Except

open Surface (Decl FuncDecl GroupKind Ident Spec ValueSpec)

variable {g : Globals}

/-! ## Outside functions -/

/-- The site of what stands outside functions. -/
def topSite (g : Globals) : Site where
  env := { globals := g }
  inLoop := false
  names := []
  fresh := []
  returns := false
  start := [{}]

theorem ready_top (hg : g.Sound) : (topSite g).Ready {} where
  globals := hg
  scopes := ⟨rfl, by simp [State.view_def, Scope.unmarked], by simp [State.view_def, Scope.unmarked],
    by simp [State.view_def, Scope.unmarked]⟩
  counterless := nofun
  frame := ⟨nofun, .inl rfl⟩
  later := le_rfl
  temps := ⟨{}, Added.temps_empty, rfl⟩

theorem atTop_ok (h : atTop g p = .ok a) : ∃ st, p (topSite g).env {} = .ok (a, st) := by
  unfold atTop at h
  cases hp : p { globals := g } {} with
  | error ds =>
    rw [hp] at h
    cases h
  | ok r =>
    rw [hp] at h
    exact ⟨r.2, ok.inj h ▸ hp⟩

theorem atTop_typeOf_ok (hg : g.Sound) (h : atTop g (typeOf e) = .ok t) : t.Storable := by
  obtain ⟨st, h⟩ := atTop_ok h
  exact ((typeOf_ok (ready_top hg)).ok h).2

theorem atTop_constSpec_ok (hg : g.Sound) (h : atTop g (constSpec spec) = .ok cs) : ∀ c ∈ cs, c.Sound := by
  obtain ⟨st, h⟩ := atTop_ok h
  exact ((constSpec_ok (ready_top hg)).ok h).2

section

variable {pos : Pos} {a : α}

theorem complain_ne_ok : (complain pos c : Except Complaints α) ≠ .ok a := nofun

theorem ite_complain_ok [Decidable p] (h : (if p then complain pos c else x) = .ok a) : ¬p ∧ x = .ok a := by
  by_cases hp : p
  · rw [if_pos hp] at h
    exact absurd h complain_ne_ok
  · rw [if_neg hp] at h
    exact ⟨hp, h⟩

end

/-! ## Uniforms, constants and types -/

/-- The declarations of a file before its functions are looked at. -/
structure Bare (options : CompileOptions) (g : Globals) : Prop where
  sound : g.Sound
  options : g.options = options
  funcs : g.funcs = []
  vertex : g.vertex = none
  fragment : g.fragment = none

section

variable {options : CompileOptions} {g g' : Globals} {pos : Pos} {name source : String} {t : Ty} {cs : List CheckedFunc}
  {ps : List Param} {f : FuncDecl} {all : List FuncDecl} {v : Signature} {p : Program} {b : Code.Block} {i : Nat}

theorem Bare.uniform (hg : Bare options g) (ht : t.Storable) :
    Bare options { g with uniforms := g.uniforms ++ [(name, t)] } :=
  { hg with sound := { hg.sound with uniforms := forall_mem_append.mpr ⟨hg.sound.uniforms, by simpa using ht⟩ } }

theorem Bare.const {c : NamedConst} (hg : Bare options g) (hc : c.Sound) :
    Bare options { g with consts := g.consts ++ [c] } :=
  { hg with sound := { hg.sound with consts := forall_mem_append.mpr ⟨hg.sound.consts, by simpa using hc⟩ } }

theorem Bare.type (hg : Bare options g) (ht : t.Storable) :
    Bare options { g with types := g.types ++ [(name, t)] } :=
  { hg with sound := { hg.sound with types := forall_mem_append.mpr ⟨hg.sound.types, by simpa using ht⟩ } }

theorem addUniforms_ok (ht : t.Storable) (hg : Bare options g) (h : addUniforms g t ns = .ok g') :
    Bare options g' := by
  induction ns generalizing g with
  | nil => exact ok.inj h ▸ hg
  | cons n ns ih =>
    obtain ⟨-, h⟩ := ite_complain_ok h
    obtain ⟨-, h⟩ := ite_complain_ok h
    exact ih (hg.uniform ht) h

theorem addConsts_ok {cs : List NamedConst} (hcs : ∀ c ∈ cs, c.Sound) (hg : Bare options g)
    (h : addConsts g pos cs = .ok g') : Bare options g' := by
  induction cs generalizing g with
  | nil => exact ok.inj h ▸ hg
  | cons c cs ih =>
    rw [forall_mem_cons] at hcs
    obtain ⟨-, h⟩ := ite_complain_ok h
    exact ih hcs.2 (hg.const hcs.1) h

def globalSpecs : List Decl → List (GroupKind × Spec)
  | [] => []
  | .group d :: ds => d.specs.map (fun s => (d.kind, s)) ++ globalSpecs ds
  | .func _ :: ds => globalSpecs ds

theorem addGroups_specs (h : addGroups g ds = .ok g') :
    (globalSpecs ds).foldlM (fun g d => addSpec g d.1 d.2) g = .ok g' := by
  induction ds generalizing g with
  | nil => exact h
  | cons d ds ih =>
    cases d with
    | group d =>
      obtain ⟨g₁, hd, h⟩ := rule_bind_ok h
      obtain ⟨-, hd⟩ := ite_complain_ok hd
      rw [globalSpecs, foldlM_append, foldlM_map, hd]
      exact ih h
    | func f => exact ih h

/-- A declaration outside functions that declares nothing. -/
def Idle : GroupKind × Spec → Prop
  | (.var, .value _) | (.const, .value _) | (.type, .type _) => False
  | _ => True

/-- What one declaration outside functions adds to those before it. -/
inductive Brings (g : Globals) : GroupKind × Spec → Globals → Prop
  | uniforms {v : ValueSpec} {e : Surface.Expr} {t : Ty} {g' : Globals} : v.ty = some e → atTop g (typeOf e) = .ok t →
      addUniforms g t v.names = .ok g' → Brings g (.var, .value v) g'
  | consts {v : ValueSpec} {cs : List NamedConst} {g' : Globals} : atTop g (constSpec v) = .ok cs →
      addConsts g v.pos cs = .ok g' → Brings g (.const, .value v) g'
  | type {d : Surface.TypeSpec} {t : Ty} : atTop g (typeOf d.ty) = .ok t → g.declares d.name.name = false →
      Brings g (.type, .type d) { g with types := g.types ++ [(d.name.name, t)] }
  | idle {d : GroupKind × Spec} : Idle d → Brings g d g

theorem addSpec_brings (h : addSpec g d.1 d.2 = .ok g') : Brings g d g' := by
  obtain ⟨kind, s⟩ := d
  cases kind <;> cases s
  case var.value v =>
    obtain ⟨-, h⟩ := ite_complain_ok h
    cases hty : v.ty with
    | none =>
      rw [hty] at h
      exact absurd h complain_ne_ok
    | some e =>
      rw [hty] at h
      obtain ⟨t, ht, h⟩ := rule_bind_ok h
      exact .uniforms hty ht h
  case const.value v =>
    obtain ⟨cs, hcs, h⟩ := rule_bind_ok h
    exact .consts hcs h
  case type.type s =>
    obtain ⟨t, ht, h⟩ := rule_bind_ok h
    obtain ⟨hnew, h⟩ := ite_complain_ok h
    cases h
    exact .type ht (by simpa using hnew)
  all_goals
    cases h
    exact .idle trivial

theorem Brings.bare (hg : Bare options g) (h : Brings g d g') : Bare options g' := by
  cases h with
  | uniforms _ ht h => exact addUniforms_ok (atTop_typeOf_ok hg.sound ht) hg h
  | consts hcs h => exact addConsts_ok (atTop_constSpec_ok hg.sound hcs) hg h
  | type ht => exact hg.type (atTop_typeOf_ok hg.sound ht)
  | idle => exact hg

theorem addGroups_ok (hg : Bare options g) (h : addGroups g ds = .ok g') : Bare options g' := by
  replace h := addGroups_specs h
  generalize globalSpecs ds = specs at h
  induction specs generalizing g with
  | nil => exact ok.inj h ▸ hg
  | cons d ds ih =>
    rw [foldlM_cons] at h
    obtain ⟨g₁, hd, h⟩ := rule_bind_ok h
    exact ih ((addSpec_brings hd).bare hg) h

theorem bare_empty (options : CompileOptions) : Bare options { options } :=
  ⟨⟨nofun, nofun, nofun, nofun⟩, rfl, rfl, rfl, rfl⟩

theorem sortUniforms_ok (hg : Bare options g) : Bare options (sortUniforms g) := by
  refine { hg with sound := { hg.sound with uniforms := fun u hu => ?_ } }
  rcases mem_append.mp hu with hu | hu
  · exact hg.sound.uniforms u (mem_of_mem_filter hu)
  · exact hg.sound.uniforms u (mem_of_mem_filter hu)

/-! ## Signatures -/

theorem params_ok (hg : g.Sound) (h : params g unnamed fs = .ok ps) :
    ∀ p ∈ ps, p.ty.Storable := by
  induction fs generalizing ps with
  | nil =>
    cases h
    exact nofun
  | cons f fs ih =>
    obtain ⟨t, ht, h⟩ := rule_bind_ok h
    have hst := atTop_typeOf_ok hg ht
    obtain ⟨more, hmore, h⟩ := rule_bind_ok h
    cases h
    refine forall_mem_append.mpr ⟨?_, ih hmore⟩
    split
    · simpa using hst
    · intro p hp
      obtain ⟨n, -, rfl⟩ := List.mem_map.mp hp
      exact hst

/-- A function returns its result or has outputs, and the vertex entry point never returns. -/
theorem signature_ok (hg : g.Sound) (h : signature g f = .ok sig) :
    sig.Sound ∧ sig.name = f.name.name ∧ (sig.outs = [] ∨ sig.result = .none) ∧
      (f.name.name = g.options.vertexEntry → sig.result = .none) := by
  obtain ⟨ins, hins, h⟩ := rule_bind_ok h
  obtain ⟨outs, houts, h⟩ := rule_bind_ok h
  have hin := params_ok hg hins
  have hout := params_ok hg houts
  have hplain : sig = ⟨f.name.name, f.pos, ins, outs, .none⟩ → sig.Sound ∧ sig.name = f.name.name ∧
      (sig.outs = [] ∨ sig.result = .none) ∧ (f.name.name = g.options.vertexEntry → sig.result = .none) := by
    rintro rfl
    exact ⟨⟨hin, hout, .inl rfl⟩, rfl, .inr rfl, fun _ => rfl⟩
  match outs, hout, hplain, h with
  | [p], hout, hplain, h =>
    by_cases hret : isReturned g f.name.name p = true
    · simp only [hret, if_true] at h
      cases h
      refine ⟨⟨hin, nofun, .inr (hout p mem_cons_self)⟩, rfl, .inl rfl, fun hv => ?_⟩
      -- the vertex entry point returns nothing, also if it has one result
      rw [isReturned, hv] at hret
      simp at hret
    · simp only [hret] at h
      exact hplain (ok.inj h).symm
  | [], _, hplain, h | _ :: _ :: _, _, hplain, h => exact hplain (ok.inj h).symm

/-- The functions that are declared so far, all of them among `all`. -/
structure Listed (options : CompileOptions) (all : List FuncDecl) (g : Globals) : Prop where
  sound : g.Sound
  fixed : g.options = options
  vertex : ∀ s, g.vertex = some s → s.Sound ∧ s.name = options.vertexEntry ∧ s.result = .none
  fragment : ∀ s, g.fragment = some s →
    s.Sound ∧ s.name = options.fragmentEntry ∧ options.fragmentEntry ≠ options.vertexEntry
  funcs : ∀ s ∈ g.funcs, s.name ≠ options.vertexEntry ∧ s.name ≠ options.fragmentEntry ∧
    (s.outs = [] ∨ s.result = .none) ∧ ∃ f ∈ all, f.name.name = s.name
  nodup : (g.funcs.map Signature.name).Nodup

theorem Bare.listed (hg : Bare options g) (all : List FuncDecl) : Listed options all g where
  sound := hg.sound
  fixed := hg.options
  vertex := by simp [hg.vertex]
  fragment := by simp [hg.fragment]
  funcs := by simp [hg.funcs]
  nodup := by simp [hg.funcs]

theorem addFunc_cases (hl : Listed options all g) (h : addFunc g f = .ok g') :
    (g.declaresFunc f.name.name = false ∧ g.declares f.name.name = false) ∧
    ∃ sig, signature g f = .ok sig ∧ sig.name = f.name.name ∧
      (f.name.name = options.vertexEntry ∧ g' = { g with vertex := some sig } ∨
      f.name.name ≠ options.vertexEntry ∧ f.name.name = options.fragmentEntry ∧ g' = { g with fragment := some sig } ∨
      f.name.name ≠ options.vertexEntry ∧ f.name.name ≠ options.fragmentEntry ∧
        g' = { g with funcs := g.funcs ++ [sig] }) := by
  obtain ⟨-, h⟩ := ite_complain_ok h
  obtain ⟨-, h⟩ := ite_complain_ok h
  obtain ⟨-, h⟩ := ite_complain_ok h
  obtain ⟨hfunc, h⟩ := ite_complain_ok h
  obtain ⟨hother, h⟩ := ite_complain_ok h
  obtain ⟨sig, hsig, h⟩ := rule_bind_ok h
  obtain ⟨-, hname, -⟩ := signature_ok hl.sound hsig
  obtain rfl := hl.fixed
  refine ⟨⟨by simpa using hfunc, by simpa using hother⟩, sig, hsig, hname, ?_⟩
  by_cases hv : f.name.name = g.options.vertexEntry
  · rw [if_pos hv] at h
    exact .inl ⟨hv, (ok.inj h).symm⟩
  · rw [if_neg hv] at h
    by_cases hf : f.name.name = g.options.fragmentEntry
    · rw [if_pos hf] at h
      exact .inr (.inl ⟨hv, hf, (ok.inj h).symm⟩)
    · rw [if_neg hf] at h
      exact .inr (.inr ⟨hv, hf, (ok.inj h).symm⟩)

theorem addFunc_ok (hf : f ∈ all) (hg : Listed options all g) (h : addFunc g f = .ok g') : Listed options all g' := by
  obtain ⟨⟨hnew, -⟩, sig, hsig, -, hcases⟩ := addFunc_cases hg h
  obtain ⟨hsound, hname, hone, hvertex⟩ := signature_ok hg.sound hsig
  obtain ⟨hv, rfl⟩ | ⟨hv, hfr, rfl⟩ | ⟨hv, hfr, rfl⟩ := hcases
  · refine { hg with sound := { hg.sound with }, vertex := fun s hs => ?_ }
    cases hs
    exact ⟨hsound, hname.trans hv, hvertex (hg.fixed ▸ hv)⟩
  · refine { hg with sound := { hg.sound with }, fragment := fun s hs => ?_ }
    cases hs
    exact ⟨hsound, hname.trans hfr, hfr ▸ hv⟩
  · refine { hg with sound := { hg.sound with funcs := ?_ }, funcs := ?_, nodup := ?_ }
    · exact forall_mem_append.mpr ⟨hg.sound.funcs, by simpa using hsound⟩
    · refine forall_mem_append.mpr ⟨hg.funcs, fun s hs => ?_⟩
      obtain rfl := mem_singleton.mp hs
      exact ⟨hname ▸ hv, hname ▸ hfr, hone, f, hf, hname.symm⟩
    · rw [map_append, map_singleton, hname]
      refine List.Nodup.append hg.nodup (nodup_singleton _) ?_
      rw [disjoint_singleton]
      -- a name that is there already would have been refused
      intro hmem
      obtain ⟨s, hs, heq⟩ := List.mem_map.mp hmem
      rw [Globals.declaresFunc, List.any_eq_true.mpr ⟨s, hs, by simpa using heq⟩] at hnew
      cases hnew

/-- What each function keeps, all of them keep. -/
theorem addFuncs_induction {P : List FuncDecl → Globals → Prop} (fs : List FuncDecl)
    (hgs : ∀ f ∈ gs, f ∈ all)
    (hstep : ∀ {fs g f g'}, f ∈ all → Listed options all g → P fs g → addFunc g f = .ok g' → P (fs ++ [f]) g')
    (hg : Listed options all g) (hp : P fs g) (h : addFuncs g gs = .ok g') :
    Listed options all g' ∧ P (fs ++ gs) g' := by
  induction gs generalizing g fs with
  | nil =>
    cases h
    exact ⟨hg, (append_nil fs).symm ▸ hp⟩
  | cons f gs ih =>
    rw [forall_mem_cons] at hgs
    obtain ⟨g₁, hf, h⟩ := rule_bind_ok h
    rw [append_cons]
    exact ih _ hgs.2 (addFunc_ok hgs.1 hg hf) (hstep hgs.1 hg hp hf) h

/-! ## Entry points -/

theorem vertexComplaints_nil (h : vertexComplaints v = []) :
    v.outs.map Param.ty = .vec4 :: (v.outs.drop 1).map Param.ty := by
  have hfirst := (append_eq_nil_iff.mp h).1
  split at hfirst
  · next hany =>
    cases houts : v.outs with
    | nil =>
      rw [houts] at hany
      cases hany
    | cons p ps =>
      rw [houts] at hany
      simpa using hany
  · cases hfirst

theorem isPrefix_of_zip (hlen : qs.length ≤ ps.length) (hz : ∀ p ∈ ps.zip qs, p.1.ty = p.2.ty) :
    qs.map Param.ty <+: ps.map Param.ty := by
  induction qs generalizing ps with
  | nil => exact nil_prefix
  | cons q qs ih =>
    cases ps with
    | nil => exact absurd hlen (by simp)
    | cons p ps =>
      rw [zip_cons_cons, forall_mem_cons] at hz
      rw [map_cons, map_cons, cons_prefix_cons]
      exact ⟨hz.1.symm, ih (Nat.le_of_succ_le_succ hlen) hz.2⟩

theorem flowComplaints_nil {f : Signature} (hv : v.outs ≠ []) (h : flowComplaints v f = []) :
    f.ins.map Param.ty <+: v.outs.map Param.ty := by
  obtain ⟨hextra, hsame⟩ := append_eq_nil_iff.mp h
  refine isPrefix_of_zip ?_ fun p hp => ?_
  · have hpos : 0 < v.outs.length := length_pos_iff.mpr hv
    split at hextra
    · cases hextra
    · next hnone =>
      rw [Nat.max_eq_left hpos] at hnone
      exact List.getElem?_eq_none_iff.mp hnone
  · rw [map_eq_nil_iff, filter_eq_nil_iff] at hsame
    simpa using hsame p hp

theorem loneComplaints_nil {f : Signature} (h : loneComplaints f = []) :
    f.ins.map Param.ty <+: .vec4 :: (f.ins.drop 1).map Param.ty := by
  have hfirst := (append_eq_nil_iff.mp h).1
  cases hins : f.ins with
  | nil => exact nil_prefix
  | cons p ps =>
    rw [hins] at hfirst
    have hp : p.ty = .vec4 := by simpa using hfirst
    simp [hp]

/-- The inputs of a complete fragment entry point are the position and every varying. -/
theorem completeFragment_types {f : Signature} (h : f.ins.map Param.ty <+: .vec4 :: flow) :
    (completeFragment flow f).ins.map Param.ty = .vec4 :: flow := by
  unfold completeFragment
  cases hins : f.ins with
  | nil => simp [Function.comp_def]
  | cons p ps =>
    rw [hins, map_cons, cons_prefix_cons] at h
    obtain ⟨hp, rest, rfl⟩ := h
    have hdrop : (ps.map Param.ty ++ rest).drop ps.length = rest := by
      rw [← length_map Param.ty, drop_left]
    simp [hp, hdrop, Function.comp_def]

/-- **The declarations of an accepted file.** Everything that bodies may refer to is sound, and the entry points take and
give what flows between them. -/
structure Declared (options : CompileOptions) (all : List FuncDecl) (g : Globals) : Prop where
  sound : g.Sound
  fixed : g.options = options
  vertex : ∀ s, g.vertex = some s → s.Sound ∧ s.name = options.vertexEntry ∧
    s.ins.map Param.ty = attributes g ∧ s.outs.map Param.ty = .vec4 :: varyings g ∧ s.result = .none
  fragment : ∀ s, g.fragment = some s → s.Sound ∧ s.name = options.fragmentEntry ∧
    options.fragmentEntry ≠ options.vertexEntry ∧ s.ins.map Param.ty = .vec4 :: varyings g ∧ s.outs = [] ∧
    s.result = .vec4
  varyings : ∀ t ∈ varyings g, t.Storable
  attributes : ∀ t ∈ attributes g, t.Storable
  funcs : ∀ s ∈ g.funcs, s.name ≠ options.vertexEntry ∧ s.name ≠ options.fragmentEntry ∧
    (s.outs = [] ∨ s.result = .none) ∧ ∃ f ∈ all, f.name.name = s.name
  nodup : (g.funcs.map Signature.name).Nodup

theorem Listed.varyings_storable (hg : Listed options all g) : ∀ t ∈ varyings g, t.Storable := by
  intro t ht
  unfold varyings at ht
  split at ht
  · next v hv =>
    obtain ⟨p, hp, rfl⟩ := List.mem_map.mp ht
    exact (hg.vertex v hv).1.outs p (mem_of_mem_drop hp)
  · next f _ hf =>
    obtain ⟨p, hp, rfl⟩ := List.mem_map.mp ht
    exact (hg.fragment f hf).1.ins p (mem_of_mem_drop hp)
  · cases ht

theorem Listed.attributes_storable (hg : Listed options all g) : ∀ t ∈ attributes g, t.Storable := by
  intro t ht
  unfold attributes at ht
  cases hv : g.vertex with
  | none =>
    rw [hv] at ht
    cases ht
  | some v =>
    rw [hv] at ht
    obtain ⟨p, hp, rfl⟩ := List.mem_map.mp ht
    exact (hg.vertex v hv).1.ins p hp

/-- The inputs of the fragment entry point begin what flows to it. -/
theorem fragment_isPrefix {f : Signature} (hf : g.fragment = some f) (h : entryComplaints g = []) :
    f.ins.map Param.ty <+: .vec4 :: varyings g ∧ f.outs = [] ∧ f.result = .vec4 := by
  obtain ⟨hv, hfr⟩ := append_eq_nil_iff.mp h
  rw [hf] at hfr
  obtain ⟨hresult, hflow⟩ := append_eq_nil_iff.mp hfr
  have hends : f.outs = [] ∧ f.result = .vec4 := by
    split at hresult
    · next hc => simpa using hc
    · cases hresult
  refine ⟨?_, hends⟩
  unfold Check.varyings
  -- without a vertex entry point, the fragment's own inputs say what flows
  cases hvx : g.vertex with
  | some v =>
    rw [hvx] at hflow hv
    have htypes := vertexComplaints_nil hv
    have hne : v.outs ≠ [] := by
      intro hnil
      rw [hnil] at htypes
      cases htypes
    exact htypes ▸ flowComplaints_nil hne hflow
  | none =>
    rw [hvx] at hflow
    rw [hf]
    exact loneComplaints_nil hflow

theorem varyings_completeEntries (h : entryComplaints g = []) : varyings (completeEntries g) = varyings g := by
  unfold Check.varyings
  cases hv : g.vertex with
  | some v => simp [completeEntries, hv]
  | none =>
    cases hf : g.fragment with
    | none => simp [completeEntries, hv, hf]
    | some f =>
      have htypes := completeFragment_types (fragment_isPrefix hf h).1
      simp only [completeEntries, hv, hf, map_some]
      rw [map_drop, htypes, drop_one, tail_cons, Check.varyings, hv, hf]

theorem completeEntries_ok (hg : Listed options all g) (h : entryComplaints g = []) :
    Declared options all (completeEntries g) where
  sound := { hg.sound with }
  fixed := hg.fixed
  vertex := by
    intro s hs
    have hs : g.vertex = some s := hs
    obtain ⟨hsound, hname, hresult⟩ := hg.vertex s hs
    refine ⟨hsound, hname, by simp [Check.attributes, completeEntries, hs], ?_, hresult⟩
    have hv := (append_eq_nil_iff.mp h).1
    rw [hs] at hv
    rw [varyings_completeEntries h, Check.varyings, hs]
    exact vertexComplaints_nil hv
  fragment := by
    intro s hs
    obtain ⟨f, hf, rfl⟩ := map_eq_some_iff.mp (show g.fragment.map _ = some s from hs)
    obtain ⟨hsound, hname, hne⟩ := hg.fragment f hf
    obtain ⟨hinputs, houts, hresult⟩ := fragment_isPrefix hf h
    have htypes := completeFragment_types hinputs
    refine ⟨⟨fun p hp => ?_, hsound.outs, hsound.result⟩, hname, hne, ?_, houts, hresult⟩
    · have hmem : p.ty ∈ Ty.vec4 :: Check.varyings g := htypes ▸ List.mem_map_of_mem hp
      rcases mem_cons.mp hmem with heq | hmem
      · rw [heq]
        decide
      · exact hg.varyings_storable _ hmem
    · rw [varyings_completeEntries h, htypes]
  varyings := by
    rw [varyings_completeEntries h]
    exact hg.varyings_storable
  attributes := hg.attributes_storable
  funcs := hg.funcs
  nodup := hg.nodup

/-- The rounds that the declarations of a file come from. -/
theorem fileGlobals_cases (h : fileGlobals options file = .ok g) :
    ∃ g₁ g₂, addGroups { options } file.decls = .ok g₁ ∧ Bare options (sortUniforms g₁) ∧
      addFuncs (sortUniforms g₁) (funcDecls file.decls) = .ok g₂ ∧ entryComplaints g₂ = [] ∧
      g = completeEntries g₂ := by
  obtain ⟨g₁, hgroups, h⟩ := rule_bind_ok h
  obtain ⟨g₂, hfuncs, h⟩ := rule_bind_ok h
  refine ⟨g₁, g₂, hgroups, sortUniforms_ok (addGroups_ok (bare_empty options) hgroups), hfuncs, ?_⟩
  cases hc : entryComplaints g₂ with
  | nil =>
    rw [hc] at h
    exact ⟨rfl, (ok.inj h).symm⟩
  | cons d ds =>
    rw [hc] at h
    cases h

theorem fileGlobals_ok {file : Surface.File} (h : fileGlobals options file = .ok g) :
    Declared options (funcDecls file.decls) g := by
  obtain ⟨g₁, g₂, -, hbare, hfuncs, hc, rfl⟩ := fileGlobals_cases h
  obtain ⟨hlisted, -⟩ := addFuncs_induction (P := fun _ _ => True) [] (fun f hf => hf)
    (fun _ _ _ _ => trivial) (hbare.listed (funcDecls file.decls)) trivial hfuncs
  exact completeEntries_ok hlisted hc

/-! ## Bodies -/

/-- What the body of a function is checked in. -/
def bodyEnv (g : Globals) (kind : BodyKind) (sig : Signature) : Env := { globals := g, frame := frameOf kind sig }

variable {kind : BodyKind} {sig : Signature}

theorem bodyScope_vars {v : Variable} (hv : v ∈ (bodyScope sig readOnly).vars) :
    (∃ p, (p ∈ sig.ins ∨ p ∈ sig.outs) ∧ v.ty = p.ty) ∧ ∃ b, v.role = .param b := by
  rcases mem_append.mp hv with hv | hv
  · obtain ⟨p, hp, rfl⟩ := List.mem_map.mp hv
    exact ⟨⟨p, .inl hp, rfl⟩, _, rfl⟩
  · obtain ⟨p, hp, rfl⟩ := List.mem_map.mp hv
    exact ⟨⟨p, .inr hp, rfl⟩, _, rfl⟩

theorem counterless_body (sig : Signature) (readOnly : Bool) : Counterless [bodyScope sig readOnly] := by
  intro v hv
  obtain ⟨-, b, hrole⟩ := bodyScope_vars hv
  rw [hrole]
  exact nofun

theorem unmarked_bodyScope (sig : Signature) (readOnly : Bool) :
    (bodyScope sig readOnly).unmarked = bodyScope sig readOnly := by
  have hvars : (bodyScope sig readOnly).vars.map Variable.unmarked = (bodyScope sig readOnly).vars := by
    rw [map_congr_left (g := id), List.map_id]
    intro v hv
    obtain ⟨-, b, hrole⟩ := bodyScope_vars hv
    simp [Variable.unmarked, hrole]
  rw [Scope.unmarked, hvars]

theorem numbered?_output {p : Param} (hp : sig.outs[k]? = some p) :
    numbered? [bodyScope sig readOnly] (sig.ins.length + k) = some ⟨p.name, p.ty, p.pos, .param false⟩ := by
  simp only [numbered?, bodyScope, Nat.zero_le, if_true, Nat.sub_zero]
  rw [List.getElem?_append_right (by simp)]
  simp [hp]

theorem mem_zeroOutputs {c : Code.Stmt} (hc : c ∈ zeroOutputs sig) : ∃ i, sig.ins.length ≤ i ∧ c = .init i := by
  unfold zeroOutputs at hc
  split at hc
  · obtain ⟨i, -, rfl⟩ := List.mem_map.mp hc
    exact ⟨_, Nat.le_add_right _ _, rfl⟩
  · cases hc

theorem inside_body (hg : g.Sound) (hs : sig.Sound) (readOnly : Bool) :
    Inside (bodyEnv g kind sig) [bodyScope sig readOnly] where
  globals := hg
  scopes := by
    refine ⟨rfl, ?_, by simp [bodyScope], by simp [bodyScope]⟩
    intro s hmem v hv
    obtain rfl := mem_singleton.mp hmem
    obtain ⟨⟨p, hp, hty⟩, -⟩ := bodyScope_vars hv
    rw [hty]
    exact hp.elim (hs.ins p) (hs.outs p)
  frame := by
    refine ⟨fun k t hk => ?_, hs.result⟩
    simp only [bodyEnv, frameOf, List.getElem?_map, map_eq_some_iff] at hk
    obtain ⟨p, hp, rfl⟩ := hk
    exact ⟨_, numbered?_output hp, rfl, rfl⟩

def bodyStmts (f : FuncDecl) : List Surface.Stmt := (f.body.map Surface.Block.stmts).getD []

/-- A block is what statements become as the body of a function: outputs that have names are zero first. -/
def IsBody (g : Globals) (kind : BodyKind) (sig : Signature) (S : List Surface.Stmt) (b : Code.Block) : Prop :=
  ∃ s cs, b = .mk s.localTypes s.paramCount (zeroOutputs sig ++ cs) ∧ ∀ chain,
    Lowers Site.Written (bodyEnv g kind sig) false chain [bodyScope sig (kind != .helper)] S [s] cs

theorem body_ok (hg : g.Sound) (hs : sig.Sound) (h : body g kind sig f = .ok b) :
    IsBody g kind sig (bodyStmts f) b := by
  obtain ⟨⟨_, st⟩, hcheck, h⟩ := rule_bind_ok h
  obtain ⟨⟨⟩, st₁, hrun, hcheck⟩ := bind_ok hcheck
  replace hcheck := get_bind_ok hcheck
  -- what is unused or missing at the end only leads to complaints
  obtain ⟨rfl, -⟩ := checkUnused_ok hcheck
  obtain ⟨-, h⟩ := ite_complain_ok h
  cases h
  have hview : State.view { scope := bodyScope sig (kind != .helper), out := zeroOutputs sig } =
      [bodyScope sig (kind != .helper)] := by
    rw [State.view_def, unmarked_bodyScope]
    rfl
  obtain ⟨cs, hout, hl⟩ : Becomes (bodyEnv g kind sig) false (bodyStmts f) _ st₁ :=
    (stmts_derives (bodyStmts f) hrun).becomes (hview ▸ inside_body hg hs _) (hview ▸ counterless_body sig _)
  rw [hview] at hl
  -- The scope of the parameters is still the only one.
  obtain ⟨a, -, hgrow⟩ := (hl []).grows
  obtain ⟨-, houter⟩ := cons.inj hgrow
  refine ⟨st₁.scope.unmarked, cs, ?_, fun chain => ?_⟩
  · rw [Scope.unmarked_localTypes, hout]
    rfl
  · have hl := hl chain
    rwa [State.view_def, houter] at hl

/-! ## Programs -/

/-- What the check of a function gives: a body for the signature that the file has under its name. -/
def Gives (g : Globals) (f : FuncDecl) : CheckedFunc → Prop
  | .vertex b => ∃ sig, g.vertex = some sig ∧ sig.name = f.name.name ∧ body g .vertex sig f = .ok b
  | .fragment b => ∃ sig, g.fragment = some sig ∧ sig.name = f.name.name ∧ body g .fragment sig f = .ok b
  | .helper k => ∃ sig, g.funcIndex? f.name.name = some k.index ∧ g.funcs[k.index]? = some sig ∧
      k.type = sig.type ∧ body g .helper sig f = .ok k.body

theorem filter_name_eq_some (h : o.filter (fun s => s.name == name) = some sig) :
    o = some sig ∧ sig.name = name := by
  obtain ⟨ho, hname⟩ := filter_eq_some_iff.mp h
  exact ⟨ho, by simpa using hname⟩

theorem checkFunc_ok (h : checkFunc g f = .ok c) : Gives g f c := by
  unfold checkFunc at h
  dsimp only at h
  split at h
  · next hv =>
    obtain ⟨b, hb, h⟩ := rule_bind_ok h
    cases h
    obtain ⟨hsig, hname⟩ := filter_name_eq_some hv
    exact ⟨_, hsig, hname, hb⟩
  · next hf =>
    obtain ⟨b, hb, h⟩ := rule_bind_ok h
    cases h
    obtain ⟨hsig, hname⟩ := filter_name_eq_some hf
    exact ⟨_, hsig, hname, hb⟩
  · next hi =>
    split at h
    · next sig hsig =>
      obtain ⟨b, hb, h⟩ := rule_bind_ok h
      cases h
      exact ⟨sig, hi, hsig, rfl, hb⟩
    · cases h
  · cases h

/-- All checks succeed where all results are collected. -/
theorem collect_ok (h : collect rs = .ok as) : rs = as.map .ok := by
  induction rs generalizing as with
  | nil =>
    cases h
    rfl
  | cons r rs ih =>
    unfold collect at h
    split at h
    · next a bs hbs =>
      cases h
      rw [map_cons, ih hbs]
    · cases h
    · cases h
    · cases h

theorem mem_helpers : k ∈ helpers cs ↔ .helper k ∈ cs := by
  induction cs with
  | nil => simp [helpers]
  | cons c cs ih => cases c <;> simp [helpers, ih]

theorem mem_of_vertexBody? (h : vertexBody? cs = some b) : .vertex b ∈ cs := by
  induction cs with
  | nil => cases h
  | cons c cs ih =>
    cases c with
    | vertex d =>
      cases h
      exact mem_cons_self
    | fragment d | helper k => exact mem_cons_of_mem _ (ih h)

theorem mem_of_fragmentBody? (h : fragmentBody? cs = some b) : .fragment b ∈ cs := by
  induction cs with
  | nil => cases h
  | cons c cs ih =>
    cases c with
    | vertex d => exact mem_cons_of_mem _ (ih h)
    | fragment d =>
      cases h
      exact mem_cons_self
    | helper k => exact mem_cons_of_mem _ (ih h)

/-- A helper function has the number of its own signature, because no other function has its name. -/
theorem Declared.funcIndex? (hd : Declared options all g) (hi : g.funcs[i]? = some sig) :
    g.funcIndex? sig.name = some i := by
  obtain ⟨hlt, rfl⟩ := List.getElem?_eq_some_iff.mp hi
  refine findIdx?_eq_some_iff_getElem.mpr ⟨hlt, by simp, fun j hj => ?_⟩
  have hne := pairwise_iff_getElem.mp hd.nodup j i (by simp; omega) (by simpa using hlt) hj
  simpa using hne

structure BodyOf (g : Globals) (f : FuncDecl) (sig : Signature) (b : Body × Ty) : Prop where
  listed : g.vertex = some sig ∨ g.fragment = some sig ∨ sig ∈ g.funcs
  named : sig.name = f.name.name
  sound : sig.Sound
  params : b.1.params = (sig.ins ++ sig.outs).map Param.ty
  result : b.2 = sig.result
  lowered : IsBody g b.1.kind sig (bodyStmts f) b.1.top

/-- **What a program has to do with its file.** -/
structure Produces (options : CompileOptions) (file : Surface.File) (g : Globals) (p : Program) : Prop where
  globals : fileGlobals options file = .ok g
  declared : Declared options (funcDecls file.decls) g
  uniforms : p.uniforms = g.uniforms.map Prod.snd
  textures : p.textureCount = g.options.textureCount
  attributes : p.attributes = attributes g
  varyings : p.varyings = varyings g
  funcs : ∀ k ∈ p.funcs, ∃ sig, g.funcs[k.index]? = some sig ∧ k.type = sig.type
  complete : ∀ i sig, g.funcs[i]? = some sig → ∃ k ∈ p.funcs, k.index = i
  bodies : ∀ b ∈ p.bodies, ∃ f ∈ funcDecls file.decls, ∃ sig, BodyOf g f sig b

theorem name_of_funcIndex? (hi : g.funcIndex? name = some i) (hs : g.funcs[i]? = some sig) : sig.name = name := by
  obtain ⟨hlt, hname, -⟩ := findIdx?_eq_some_iff_getElem.mp hi
  obtain ⟨-, rfl⟩ := List.getElem?_eq_some_iff.mp hs
  simpa using hname

theorem Declared.not_entry (hd : Declared options all g) (hs : sig ∈ g.funcs) :
    g.vertex.filter (fun s => s.name == sig.name) = none ∧ g.fragment.filter (fun s => s.name == sig.name) = none := by
  obtain ⟨hv, hf, -⟩ := hd.funcs sig hs
  refine ⟨filter_eq_none_iff.mpr fun s hs => ?_, filter_eq_none_iff.mpr fun s hs => ?_⟩
  · rw [(hd.vertex s hs).2.1]
    simpa using hv.symm
  · rw [(hd.fragment s hs).2.1]
    simpa using hf.symm

theorem Declared.gives_helper (hd : Declared options all g) (hi : g.funcs[i]? = some sig)
    (hname : f.name.name = sig.name) (h : Gives g f c) : ∃ k, c = .helper k ∧ k.index = i := by
  obtain ⟨hv, hf⟩ := hd.not_entry (mem_of_getElem? hi)
  cases c with
  | vertex b =>
    obtain ⟨s, hs, hn, -⟩ := h
    exact absurd hv (by simp [hs, hn, hname])
  | fragment b =>
    obtain ⟨s, hs, hn, -⟩ := h
    exact absurd hf (by simp [hs, hn, hname])
  | helper k =>
    obtain ⟨s, hk, -⟩ := h
    rw [hname, hd.funcIndex? hi] at hk
    exact ⟨k, rfl, (some.inj hk).symm⟩

structure Checks (g : Globals) (f : FuncDecl) (sig : Signature) (b : Body × Ty) : Prop where
  run : body g b.1.kind sig f = .ok b.1.top
  vertex : b.1.kind = .vertex → g.vertex = some sig
  fragment : b.1.kind = .fragment → g.fragment = some sig

def assemble (options : CompileOptions) (unit : CoordUnit) (g : Globals) (cs : List CheckedFunc) : Program where
  unit
  uniformNames := g.uniforms.map Prod.fst
  uniforms := g.uniforms.map Prod.snd
  textureCount := options.textureCount
  attributes := attributes g
  varyings := varyings g
  funcs := helpers cs
  vertex := vertexBody? cs
  fragment := fragmentBody? cs

theorem Declared.bodyOf {b : Body × Ty} (hd : Declared options all g)
    (hgives : ∀ c ∈ cs, ∃ f ∈ all, Gives g f c) (hb : b ∈ (assemble options unit g cs).bodies) :
    ∃ f ∈ all, ∃ sig, BodyOf g f sig b ∧ Checks g f sig b := by
  simp only [Program.bodies, mem_append, List.mem_map, mem_toList] at hb
  rcases hb with (⟨b, hb, rfl⟩ | ⟨b, hb, rfl⟩) | ⟨k, hk, rfl⟩
  · obtain ⟨f, hf, sig, hsig, hname, hbody⟩ := hgives _ (mem_of_vertexBody? hb)
    obtain ⟨hsound, -, hins, houts, hresult⟩ := hd.vertex sig hsig
    refine ⟨f, hf, sig, ⟨.inl hsig, hname, hsound, ?_, hresult.symm, body_ok hd.sound hsound hbody⟩,
      ⟨hbody, fun _ => hsig, nofun⟩⟩
    rw [map_append, hins, houts]
    rfl
  · obtain ⟨f, hf, sig, hsig, hname, hbody⟩ := hgives _ (mem_of_fragmentBody? hb)
    obtain ⟨hsound, -, -, hins, houts, hresult⟩ := hd.fragment sig hsig
    refine ⟨f, hf, sig, ⟨.inr (.inl hsig), hname, hsound, ?_, hresult.symm, body_ok hd.sound hsound hbody⟩,
      ⟨hbody, nofun, fun _ => hsig⟩⟩
    rw [houts, append_nil, hins]
    rfl
  · obtain ⟨f, hf, sig, hindex, hsig, htype, hbody⟩ := hgives _ (mem_helpers.mp hk)
    have hmem := mem_of_getElem? hsig
    have hsound := hd.sound.funcs sig hmem
    obtain ⟨hins, houts, hresult⟩ := Code.FuncType.mk.inj htype
    refine ⟨f, hf, sig, ⟨.inr (.inr hmem), name_of_funcIndex? hindex hsig, hsound, ?_, hresult,
      body_ok hd.sound hsound hbody⟩, ⟨hbody, nofun, nofun⟩⟩
    rw [map_append, ← hins, ← houts]
    rfl

/-- **How a program is made**: its declarations, and what the check of each function of the file gives, in order. -/
structure Assembly (options : CompileOptions) (file : Surface.File) (g : Globals) (cs : List CheckedFunc) (p : Program) :
    Prop where
  globals : fileGlobals options file = .ok g
  checked : List.Forall₂ (Gives g) (funcDecls file.decls) cs
  program : ∃ unit, p = assemble options unit g cs

section

variable {file : Surface.File} {cs : List CheckedFunc} {p : Program}

theorem program_ok (h : program options unit file = .ok p) :
    ∃ g cs, Assembly options file g cs p := by
  obtain ⟨g, hg, h⟩ := rule_bind_ok h
  obtain ⟨cs, hcs, h⟩ := rule_bind_ok h
  refine ⟨g, cs, hg, ?_, unit, (ok.inj h).symm⟩
  have hrun : List.Forall₂ (· = ·) ((funcDecls file.decls).map (checkFunc g)) (cs.map .ok) :=
    collect_ok hcs ▸ forall₂_refl _
  rw [forall₂_map_left_iff, forall₂_map_right_iff] at hrun
  exact hrun.imp fun _ _ => checkFunc_ok

theorem Assembly.declared (h : Assembly options file g cs p) : Declared options (funcDecls file.decls) g :=
  fileGlobals_ok h.globals

theorem Assembly.gives (h : Assembly options file g cs p) : ∀ c ∈ cs, ∃ f ∈ funcDecls file.decls, Gives g f c := by
  intro c hc
  obtain ⟨i, hi, rfl⟩ := getElem_of_mem hc
  have hlen := h.checked.length_eq
  exact ⟨_, getElem_mem (hlen ▸ hi), h.checked.get (hlen ▸ hi) hi⟩

theorem Assembly.given (h : Assembly options file g cs p) : ∀ f ∈ funcDecls file.decls, ∃ c ∈ cs, Gives g f c := by
  intro f hf
  obtain ⟨i, hi, rfl⟩ := getElem_of_mem hf
  have hlen := h.checked.length_eq
  exact ⟨_, getElem_mem (hlen ▸ hi), h.checked.get hi (hlen ▸ hi)⟩

theorem Assembly.bodyOf (h : Assembly options file g cs p) {b : Body × Ty} (hb : b ∈ p.bodies) :
    ∃ f ∈ funcDecls file.decls, ∃ sig, BodyOf g f sig b ∧ Checks g f sig b := by
  obtain ⟨unit, rfl⟩ := h.program
  exact h.declared.bodyOf h.gives hb

theorem Assembly.produces (h : Assembly options file g cs p) : Produces options file g p := by
  have hd := h.declared
  have hbodies := fun b (hb : b ∈ p.bodies) => h.bodyOf hb
  obtain ⟨unit, rfl⟩ := h.program
  refine ⟨h.globals, hd, rfl, congrArg CompileOptions.textureCount hd.fixed.symm, rfl, rfl, fun k hk => ?_,
    fun i sig hi => ?_, fun b hb => ?_⟩
  · obtain ⟨f, -, sig, -, hsig, htype, -⟩ := h.gives _ (mem_helpers.mp hk)
    exact ⟨sig, hsig, htype⟩
  · obtain ⟨-, -, -, f, hf, hname⟩ := hd.funcs sig (mem_of_getElem? hi)
    -- every function of the file was checked, so none of the helpers is missing
    obtain ⟨c, hc, hgives⟩ := h.given f hf
    obtain ⟨k, rfl, hk⟩ := hd.gives_helper hi hname hgives
    exact ⟨k, mem_helpers.mpr hc, hk⟩
  · obtain ⟨f, hf, sig, hbody, -⟩ := hbodies b hb
    exact ⟨f, hf, sig, hbody⟩

end

theorem mapError_ok {ε ε' : Type} {e : ε → ε'} {x : Except ε α} (h : x.mapError e = .ok a) : x = .ok a := by
  cases x with
  | error d => cases h
  | ok b => exact congrArg ok (ok.inj h)

theorem compile_assembly (h : compile options source = .ok p) :
    ∃ file g cs, Surface.File.ofSource source = .ok file ∧ Assembly options file g cs p := by
  obtain ⟨unit, -, h⟩ := rule_bind_ok h
  obtain ⟨file, hfile, h⟩ := rule_bind_ok h
  obtain ⟨g, cs, hp⟩ := program_ok (mapError_ok h)
  exact ⟨file, g, cs, mapError_ok hfile, hp⟩

/-- **Every accepted source is a file whose declarations are sound, and its bodies become those of the program.** -/
theorem compile_ok (h : compile options source = .ok p) :
    ∃ file g, Surface.File.ofSource source = .ok file ∧ Produces options file g p := by
  obtain ⟨file, g, cs, hfile, hp⟩ := compile_assembly h
  exact ⟨file, g, hfile, hp.produces⟩

end

end GameMedia.Shader.Check
