import GameMedia.Proofs.Shader.Traces

/-!
# Accepted programs are closed and complete

A program has all that its file declares, and nothing in its bodies refers to anything else. The rounds of the check
add uniforms and functions at the end of their lists, so after each round the lists are those of the declarations so
far, in their order. The last round checks every function, and a program is made only if none of them fails. Since functions
have different names, the number of a signature is the number of the function that is made for it.

The other half is that no round fails without a complaint. This is clear wherever a complaint is made. It remains that
every function has a signature by the time its body is checked.
-/

namespace GameMedia.Shader

open List Option Except

namespace Check

open Surface (Decl FuncDecl Group GroupKind Ident Spec ValueSpec stmtsParts)

/-! ## Uniforms in order -/

/-- **The uniforms that declarations give**, in the order of the source. Each has the type that its declaration means
where it stands, after the declarations before it. -/
inductive UniformsOf : Globals → List (GroupKind × Spec) → List (String × Ty) → Prop
  | nil {g : Globals} : UniformsOf g [] []
  | uniform {g g' : Globals} {s : ValueSpec} {e : Surface.Expr} {t : Ty} {rest : List (GroupKind × Spec)}
      {us : List (String × Ty)} : s.ty = some e → atTop g (typeOf e) = .ok t → addSpec g .var (.value s) = .ok g' →
      UniformsOf g' rest us → UniformsOf g ((.var, .value s) :: rest) (s.names.map (fun n => (n.name, t)) ++ us)
  | other {g g' : Globals} {kind : GroupKind} {s : Spec} {rest : List (GroupKind × Spec)} {us : List (String × Ty)} :
      (∀ v, (kind, s) ≠ (.var, .value v)) → addSpec g kind s = .ok g' → UniformsOf g' rest us →
      UniformsOf g ((kind, s) :: rest) us

/-- The names of the uniforms are different. -/
def Globals.Distinct (g : Globals) : Prop := (g.uniforms.map Prod.fst).Nodup

section

variable {options : CompileOptions} {g g' : Globals} {kind : GroupKind} {all : List FuncDecl} {f : FuncDecl}

theorem addUniforms_adds (hd : g.Distinct) (h : addUniforms g t ns = .ok g') :
    g'.uniforms = g.uniforms ++ ns.map (fun n => (n.name, t)) ∧ g'.Distinct := by
  induction ns generalizing g with
  | nil =>
    cases h
    exact ⟨(append_nil _).symm, hd⟩
  | cons n ns ih =>
    obtain ⟨-, h⟩ := ite_complain_ok h
    obtain ⟨hnew, h⟩ := ite_complain_ok h
    have hfresh : n.name ∉ g.uniforms.map Prod.fst := by
      intro hmem
      obtain ⟨u, hu, hname⟩ := List.mem_map.mp hmem
      have hany : g.uniforms.any (·.1 == n.name) = true := List.any_eq_true.mpr ⟨u, hu, by simpa using hname⟩
      rw [Globals.declares, hany, Bool.or_true] at hnew
      exact hnew rfl
    have hd' : ({ g with uniforms := g.uniforms ++ [(n.name, t)] } : Globals).Distinct := by
      rw [Globals.Distinct, map_append]
      exact List.Nodup.append hd (nodup_singleton _) (disjoint_singleton.mpr hfresh)
    obtain ⟨hus, hdistinct⟩ := ih hd' h
    rw [append_assoc] at hus
    exact ⟨hus, hdistinct⟩

theorem addConsts_uniforms (h : addConsts g pos cs = .ok g') : g'.uniforms = g.uniforms := by
  induction cs generalizing g with
  | nil => exact ok.inj h ▸ rfl
  | cons c cs ih =>
    obtain ⟨-, h⟩ := ite_complain_ok h
    have hsame := ih h
    exact hsame

theorem specs_uniforms (hd : g.Distinct)
    (h : ds.foldlM (fun g d => addSpec g d.1 d.2) g = .ok g') :
    ∃ us, UniformsOf g ds us ∧ g'.uniforms = g.uniforms ++ us ∧ g'.Distinct := by
  induction ds generalizing g with
  | nil =>
    cases h
    exact ⟨[], .nil, (append_nil _).symm, hd⟩
  | cons d ds ih =>
    rw [foldlM_cons] at h
    obtain ⟨g₁, hs, hfold⟩ := rule_bind_ok h
    have hother (hne : ∀ v, d ≠ (.var, .value v)) (hsame : g₁.uniforms = g.uniforms) :
        ∃ us, UniformsOf g (d :: ds) us ∧ g'.uniforms = g.uniforms ++ us ∧ g'.Distinct := by
      have hd₁ : g₁.Distinct := by rwa [Globals.Distinct, hsame]
      obtain ⟨us, hrest, hus, hd'⟩ := ih hd₁ hfold
      exact ⟨us, .other hne hs hrest, by rw [hus, hsame], hd'⟩
    cases addSpec_brings hs with
    | uniforms hty ht hadd =>
      obtain ⟨hus, hd₁⟩ := addUniforms_adds hd hadd
      obtain ⟨us, hrest, hus', hd'⟩ := ih hd₁ hfold
      exact ⟨_, .uniform hty ht hs hrest, by rw [hus', hus, append_assoc], hd'⟩
    | consts _ hadd => exact hother (by simp) (addConsts_uniforms hadd)
    | type => exact hother (by simp) rfl
    | idle hidle =>
      refine hother ?_ rfl
      rintro v rfl
      exact hidle

/-! ## Functions in order -/

/-- The functions that are no entry points. -/
def helperDecls (options : CompileOptions) (fs : List FuncDecl) : List FuncDecl :=
  fs.filter fun f => f.name.name ≠ options.vertexEntry ∧ f.name.name ≠ options.fragmentEntry

/-- The functions so far have their signatures, and the helpers among them are in order. -/
structure Registered (options : CompileOptions) (fs : List FuncDecl) (g : Globals) : Prop where
  funcs : g.funcs.map Signature.name = (helperDecls options fs).map fun f => f.name.name
  vertex : ∀ f ∈ fs, f.name.name = options.vertexEntry → g.vertex.isSome
  fragment : ∀ f ∈ fs, f.name.name ≠ options.vertexEntry → f.name.name = options.fragmentEntry → g.fragment.isSome

theorem addFunc_registers (hl : Listed options all g) (hr : Registered options fs g)
    (h : addFunc g f = .ok g') : Registered options (fs ++ [f]) g' ∧ g'.uniforms = g.uniforms := by
  have hsplit : helperDecls options (fs ++ [f]) = helperDecls options fs ++ helperDecls options [f] :=
    filter_append ..
  obtain ⟨-, sig, -, hname, ⟨hv, rfl⟩ | ⟨hv, hf, rfl⟩ | ⟨hv, hf, rfl⟩⟩ := addFunc_cases hl h
  · refine ⟨⟨?_, fun _ _ _ => rfl, ?_⟩, rfl⟩
    · have hnone : helperDecls options [f] = [] := filter_cons_of_neg (by simp [hv])
      rw [hsplit, hnone, append_nil]
      exact hr.funcs
    · refine forall_mem_append.mpr ⟨hr.fragment, fun f' hf' hne => ?_⟩
      obtain rfl := mem_singleton.mp hf'
      exact absurd hv hne
  · refine ⟨⟨?_, ?_, fun _ _ _ _ => rfl⟩, rfl⟩
    · have hnone : helperDecls options [f] = [] := filter_cons_of_neg (by simp [hf])
      rw [hsplit, hnone, append_nil]
      exact hr.funcs
    · refine forall_mem_append.mpr ⟨hr.vertex, fun f' hf' heq => ?_⟩
      obtain rfl := mem_singleton.mp hf'
      exact absurd heq hv
  · refine ⟨⟨?_, ?_, ?_⟩, rfl⟩
    · have hone : helperDecls options [f] = [f] := filter_cons_of_pos (by simp [hv, hf])
      rw [hsplit, hone, map_append, map_append, hr.funcs, map_singleton, map_singleton, hname]
    · refine forall_mem_append.mpr ⟨hr.vertex, fun f' hf' heq => ?_⟩
      obtain rfl := mem_singleton.mp hf'
      exact absurd heq hv
    · refine forall_mem_append.mpr ⟨hr.fragment, fun f' hf' _ heq => ?_⟩
      obtain rfl := mem_singleton.mp hf'
      exact absurd heq hf

/-- Internal uniforms before the others, each group in the order it has. -/
def internalFirst (us : List (String × Ty)) : List (String × Ty) :=
  us.filter (fun u => isInternal u.1) ++ us.filter fun u => !isInternal u.1

/-- The declarations of an accepted file. -/
theorem fileGlobals_registers (h : fileGlobals options file = .ok g) :
    Registered options (funcDecls file.decls) g ∧ ∃ us, UniformsOf { options } (globalSpecs file.decls) us ∧
      g.uniforms = internalFirst us ∧ g.Distinct := by
  obtain ⟨g₁, g₂, hgroups, hbare, hfuncs, -, rfl⟩ := fileGlobals_cases h
  have hempty : ({ options } : Globals).Distinct := nodup_nil
  obtain ⟨us, hus, heq, hd⟩ := specs_uniforms hempty (addGroups_specs hgroups)
  have hstart : Registered options [] (sortUniforms g₁) := ⟨by rw [hbare.funcs]; rfl, nofun, nofun⟩
  obtain ⟨-, hr, hsame⟩ := addFuncs_induction
    (P := fun fs g => Registered options fs g ∧ g.uniforms = (sortUniforms g₁).uniforms) [] (fun f hf => hf)
    (fun _ hl hp hf => (addFunc_registers hl hp.1 hf).imp_right (·.trans hp.2))
    (hbare.listed (funcDecls file.decls)) ⟨hstart, rfl⟩ hfuncs
  have hsorted : g₂.uniforms = internalFirst us := by
    rw [hsame, sortUniforms, heq]
    rfl
  have hperm : (internalFirst us).Perm us := filter_append_perm _ _
  have hdistinct : g₂.Distinct := by
    rw [Globals.Distinct, hsorted, (hperm.map Prod.fst).nodup_iff]
    rwa [Globals.Distinct, heq] at hd
  refine ⟨⟨hr.funcs, hr.vertex, fun f hf hv hname => ?_⟩, us, hus, hsorted, hdistinct⟩
  rw [completeEntries, isSome_map]
  exact hr.fragment f hf hv hname

end

/-! ## Complaints -/

section

variable {α β : Type} {options : CompileOptions} {g : Globals}

theorem explained_atTop (h : Yields { globals := g } P p Q) : Explained (atTop g p) := by
  intro ds hds
  unfold atTop at hds
  cases hp : p { globals := g } {} with
  | ok r =>
    rw [hp] at hds
    cases hds
  | error es =>
    rw [hp] at hds
    obtain rfl := error.inj hds
    exact h.error hp

theorem explained_typeOf (g : Globals) (e : Surface.Expr) : Explained (atTop g (typeOf e)) :=
  explained_atTop (P := fun _ => True) (yields_typeOf e)

theorem explained_foldlM (h : ∀ b a, Explained (f b a)) (as : List α) (b : β) : Explained (as.foldlM f b) := by
  induction as generalizing b with
  | nil => exact explained_ok b
  | cons a as ih =>
    rw [foldlM_cons]
    exact (h b a).bind fun b' _ => ih b'

theorem explained_addUniforms (g : Globals) (t : Ty) (ns : List Ident) : Explained (addUniforms g t ns) := by
  induction ns generalizing g with
  | nil => exact explained_ok g
  | cons n ns ih => exact explained_ite_complain fun _ => explained_ite_complain fun _ => ih _

theorem explained_addConsts (g : Globals) (pos : Pos) (cs : List NamedConst) : Explained (addConsts g pos cs) := by
  induction cs generalizing g with
  | nil => exact explained_ok g
  | cons c cs ih => exact explained_ite_complain fun _ => ih _

theorem explained_addSpec (g : Globals) (kind : GroupKind) (s : Spec) : Explained (addSpec g kind s) := by
  match kind, s with
  | .var, .value s =>
    refine explained_ite_complain fun _ => ?_
    cases s.ty with
    | none => exact explained_complain
    | some e => exact (explained_typeOf g e).bind fun t _ => explained_addUniforms g t s.names
  | .const, .value s =>
    exact (explained_atTop (P := fun _ => True) (yields_constSpec s)).bind fun cs _ => explained_addConsts g s.pos cs
  | .type, .type s =>
    exact (explained_typeOf g s.ty).bind fun t _ => explained_ite_complain fun _ => explained_ok _
  | .imports, .path _ | .imports, .value _ | .imports, .type _ | .const, .path _ | .const, .type _ | .type, .path _
  | .type, .value _ | .var, .path _ | .var, .type _ => exact explained_ok g

theorem explained_addGroups (g : Globals) (ds : List Decl) : Explained (addGroups g ds) := by
  induction ds generalizing g with
  | nil => exact explained_ok g
  | cons d ds ih =>
    cases d with
    | group d =>
      have hgroup : Explained (addGroup g d) :=
        explained_ite_complain fun _ => explained_foldlM (fun g s => explained_addSpec g d.kind s) d.specs g
      exact hgroup.bind fun g' _ => ih g'
    | func f => exact ih g

theorem explained_params (g : Globals) (unnamed : String) (fs : List Surface.Field) :
    Explained (params g unnamed fs) := by
  induction fs with
  | nil => exact explained_ok []
  | cons f fs ih => exact (explained_typeOf g f.ty).bind fun t _ => ih.bind fun ps _ => explained_ok _

theorem explained_signature (g : Globals) (f : FuncDecl) : Explained (signature g f) := by
  refine (explained_params g "_" f.params).bind fun ins _ => (explained_params g "" f.results).bind fun outs _ => ?_
  match outs with
  | [p] => exact explained_ite (fun _ => explained_ok _) fun _ => explained_ok _
  | [] | _ :: _ :: _ => exact explained_ok _

theorem explained_addFunc (g : Globals) (f : FuncDecl) : Explained (addFunc g f) :=
  explained_ite_complain fun _ => explained_ite_complain fun _ => explained_ite_complain fun _ =>
    explained_ite_complain fun _ => explained_ite_complain fun _ => (explained_signature g f).bind fun _ _ =>
      explained_ite (fun _ => explained_ok _) fun _ => explained_ite (fun _ => explained_ok _) fun _ => explained_ok _

theorem explained_addFuncs (g : Globals) (fs : List FuncDecl) : Explained (addFuncs g fs) := by
  induction fs generalizing g with
  | nil => exact explained_ok g
  | cons f fs ih => exact (explained_addFunc g f).bind fun g' _ => ih g'

theorem explained_fileGlobals (options : CompileOptions) (file : Surface.File) :
    Explained (fileGlobals options file) := by
  refine (explained_addGroups _ file.decls).bind fun g₁ _ => (explained_addFuncs _ _).bind fun g₂ _ => ?_
  cases entryComplaints g₂ with
  | nil => exact explained_ok _
  | cons d ds => exact fun _ hds => error.inj hds ▸ cons_ne_nil d ds

theorem filter_name_isSome {o : Option Signature} (ho : o.isSome)
    (hname : ∀ s, o = some s → s.name = name) : o.filter (fun s => s.name == name) ≠ none := by
  obtain ⟨s, rfl⟩ := isSome_iff_exists.mp ho
  simp [hname s rfl]

theorem explained_checkFunc {all fs : List FuncDecl} (hd : Declared options all g) (hr : Registered options fs g)
    (hf : f ∈ fs) : Explained (checkFunc g f) := by
  unfold checkFunc
  dsimp only
  split
  · exact (explained_body _ _ _ _).bind fun _ _ => explained_ok _
  · exact (explained_body _ _ _ _).bind fun _ _ => explained_ok _
  · next index _ _ hindex =>
    cases hsig : g.funcs[index]? with
    | some sig => exact (explained_body _ _ _ _).bind fun _ _ => explained_ok _
    | none =>
      obtain ⟨hlt, -⟩ := findIdx?_eq_some_iff_getElem.mp hindex
      rw [List.getElem?_eq_getElem hlt] at hsig
      cases hsig
  · next hv hfr hindex =>
    exfalso
    by_cases hname : f.name.name = options.vertexEntry
    · refine filter_name_isSome (hr.vertex f hf hname) (fun s hs => ?_) hv
      rw [hname]
      exact (hd.vertex s hs).2.1
    by_cases hname' : f.name.name = options.fragmentEntry
    · refine filter_name_isSome (hr.fragment f hf hname hname') (fun s hs => ?_) hfr
      rw [hname']
      exact (hd.fragment s hs).2.1
    -- otherwise it is one of the helpers
    have hmem : f.name.name ∈ g.funcs.map Signature.name := by
      rw [hr.funcs]
      exact List.mem_map.mpr ⟨f, mem_filter.mpr ⟨hf, by simp [hname, hname']⟩, rfl⟩
    obtain ⟨s, hs, heq⟩ := List.mem_map.mp hmem
    have hnone := findIdx?_eq_none_iff.mp hindex s hs
    exact absurd heq (by simpa using hnone)

theorem explained_collect (h : ∀ r ∈ rs, Explained r) : Explained (collect rs) := by
  induction rs with
  | nil => exact explained_ok []
  | cons r rs ih =>
    rw [forall_mem_cons] at h
    intro es hes
    unfold collect at hes
    split at hes
    · cases hes
    · next hrest => exact error.inj hes ▸ ih h.2 _ hrest
    · exact error.inj hes ▸ h.1 _ rfl
    · obtain rfl := error.inj hes
      exact append_ne_nil_of_left_ne_nil (h.1 _ rfl) _

theorem explained_program (options : CompileOptions) (unit : CoordUnit) (file : Surface.File) :
    Explained (program options unit file) := by
  refine (explained_fileGlobals options file).bind fun g hg => ?_
  have hchecked : Explained (collect ((funcDecls file.decls).map (checkFunc g))) := by
    refine explained_collect fun r hr => ?_
    obtain ⟨f, hf, rfl⟩ := List.mem_map.mp hr
    exact explained_checkFunc (fileGlobals_ok hg) (fileGlobals_registers hg).1 hf
  exact hchecked.bind fun cs _ => explained_ok _

/-- **A source that is refused for its meaning is complained of.** -/
theorem compile_error (h : compile options source = .error (.meaning ds)) :
    ds ≠ [] := by
  unfold compile at h
  cases hunit : coordUnit source with
  | error e =>
    rw [hunit] at h
    cases h
  | ok unit =>
    rw [hunit] at h
    cases hfile : Surface.File.ofSource source with
    | error e =>
      rw [hfile] at h
      cases h
    | ok file =>
      rw [hfile] at h
      change (program options unit file).mapError CompileError.meaning = _ at h
      cases hp : program options unit file with
      | ok p =>
        rw [hp] at h
        cases h
      | error es =>
        rw [hp] at h
        obtain rfl := CompileError.meaning.inj (error.inj h)
        exact explained_program options unit file es hp

end

/-! ## Programs -/

section

variable {options : CompileOptions} {file : Surface.File} {g : Globals} {cs : List CheckedFunc} {p : Program}
  {b : Code.Block}

def CheckedFunc.Suits (options : CompileOptions) (name : String) : CheckedFunc → Prop
  | .vertex _ => name = options.vertexEntry
  | .fragment _ => name ≠ options.vertexEntry ∧ name = options.fragmentEntry
  | .helper _ => name ≠ options.vertexEntry ∧ name ≠ options.fragmentEntry

/-- The name of a function decides what it becomes. -/
theorem Declared.suits {all : List FuncDecl} (hd : Declared options all g) (h : Gives g f c) :
    c.Suits options f.name.name := by
  cases c with
  | vertex b =>
    obtain ⟨sig, hsig, hname, -⟩ := h
    exact hname.symm.trans (hd.vertex sig hsig).2.1
  | fragment b =>
    obtain ⟨sig, hsig, hname, -⟩ := h
    obtain ⟨-, hentry, hne, -⟩ := hd.fragment sig hsig
    rw [CheckedFunc.Suits, ← hname, hentry]
    exact ⟨hne, rfl⟩
  | helper k =>
    obtain ⟨sig, hindex, hsig, -⟩ := h
    obtain ⟨hv, hfr, -⟩ := hd.funcs sig (mem_of_getElem? hsig)
    rw [name_of_funcIndex? hindex hsig] at hv hfr
    exact ⟨hv, hfr⟩

/-- The checks of entry points are left out on both sides. -/
theorem Declared.helpers {all fs : List FuncDecl} (hd : Declared options all g) (h : List.Forall₂ (Gives g) fs cs) :
    List.Forall₂ (fun f k => Gives g f (.helper k)) (helperDecls options fs) (Check.helpers cs) := by
  induction h with
  | nil => exact .nil
  | @cons f c fs cs hf _ ih =>
    have hsuits := hd.suits hf
    cases c with
    | vertex b =>
      rw [helperDecls, filter_cons_of_neg (by simp [show f.name.name = options.vertexEntry from hsuits])]
      exact ih
    | fragment b =>
      rw [helperDecls, filter_cons_of_neg (by simp [hsuits.2])]
      exact ih
    | helper k =>
      rw [helperDecls, filter_cons_of_pos (by simp [hsuits.1, hsuits.2])]
      exact .cons hf ih

/-- The number of a function is its place. -/
theorem Declared.index {all fs : List FuncDecl} (hd : Declared options all g)
    (hr : Registered options fs g) (h : List.Forall₂ (fun f k => Gives g f (.helper k)) (helperDecls options fs) ks)
    {k : Func} (hk : ks[i]? = some k) : k.index = i := by
  obtain ⟨hlt, rfl⟩ := List.getElem?_eq_some_iff.mp hk
  have hlt' : i < (helperDecls options fs).length := h.length_eq ▸ hlt
  obtain ⟨sig, hindex, -⟩ := h.get hlt' hlt
  -- the signature in the same place has the same name
  have hlen : i < g.funcs.length := by
    have hlens := congrArg length hr.funcs
    simp only [length_map] at hlens
    omega
  have hname : g.funcs[i].name = ((helperDecls options fs).get ⟨i, hlt'⟩).name.name := by
    have hat := congrArg (fun l => l[i]?) hr.funcs
    simpa [List.getElem?_eq_getElem hlen, List.getElem?_eq_getElem hlt'] using hat
  have hfound := hd.funcIndex? (List.getElem?_eq_getElem hlen)
  rw [hname, hindex] at hfound
  exact some.inj hfound

theorem vertexBody?_isSome (h : .vertex b ∈ cs) : (vertexBody? cs).isSome := by
  induction cs with
  | nil => cases h
  | cons c cs ih =>
    cases c with
    | vertex d => rfl
    | fragment d | helper k => exact ih ((mem_cons.mp h).resolve_left nofun)

theorem fragmentBody?_isSome (h : .fragment b ∈ cs) : (fragmentBody? cs).isSome := by
  induction cs with
  | nil => cases h
  | cons c cs ih =>
    cases c with
    | vertex d => exact ih ((mem_cons.mp h).resolve_left nofun)
    | fragment d => rfl
    | helper k => exact ih ((mem_cons.mp h).resolve_left nofun)

theorem Assembly.vertex_iff (h : Assembly options file g cs p) :
    p.vertex.isSome ↔ ∃ f ∈ funcDecls file.decls, f.name.name = options.vertexEntry := by
  have hd := h.declared
  obtain ⟨unit, rfl⟩ := h.program
  constructor
  · intro hsome
    obtain ⟨b, hb⟩ := isSome_iff_exists.mp hsome
    obtain ⟨f, hf, hgives⟩ := h.gives _ (mem_of_vertexBody? hb)
    exact ⟨f, hf, hd.suits hgives⟩
  · rintro ⟨f, hf, hentry⟩
    obtain ⟨c, hc, hgives⟩ := h.given f hf
    have hsuits := hd.suits hgives
    cases c with
    | vertex b => exact vertexBody?_isSome hc
    | fragment b | helper k => exact absurd hentry hsuits.1

theorem Assembly.fragment_iff (h : Assembly options file g cs p) :
    p.fragment.isSome ↔ options.fragmentEntry ≠ options.vertexEntry ∧
      ∃ f ∈ funcDecls file.decls, f.name.name = options.fragmentEntry := by
  have hd := h.declared
  obtain ⟨unit, rfl⟩ := h.program
  constructor
  · intro hsome
    obtain ⟨b, hb⟩ := isSome_iff_exists.mp hsome
    obtain ⟨f, hf, hgives⟩ := h.gives _ (mem_of_fragmentBody? hb)
    obtain ⟨hne, hentry⟩ := hd.suits hgives
    exact ⟨hentry ▸ hne, f, hf, hentry⟩
  · rintro ⟨hne, f, hf, hentry⟩
    obtain ⟨c, hc, hgives⟩ := h.given f hf
    have hsuits := hd.suits hgives
    cases c with
    | vertex b => exact absurd (hentry.symm.trans hsuits) hne
    | fragment b => exact fragmentBody?_isSome hc
    | helper k => exact absurd hentry hsuits.2

def helperNames (options : CompileOptions) (file : Surface.File) : List String :=
  (helperDecls options (funcDecls file.decls)).map fun f => f.name.name

/-- The body is made of the function, and each call in it is a call that the function has, of a function that the
program has. -/
structure Follows (options : CompileOptions) (file : Surface.File) (g : Globals) (p : Program) (f : FuncDecl)
    (b : Body × Ty) : Prop where
  made : ∃ sig, sig.name = f.name.name ∧ body g b.1.kind sig f = .ok b.1.top
  vertex : b.1.kind = .vertex → f.name.name = options.vertexEntry
  fragment : b.1.kind = .fragment → f.name.name = options.fragmentEntry
  own : ∀ x ∈ b.1.top.places [], ∀ o ∈ x.2.own, From (helperNames options file) (stmtsParts (bodyStmts f)) o
  calls : ∀ i, .func i ∈ b.1.top.nodes →
    i < p.funcs.length ∧ Names (helperNames options file) (stmtsParts (bodyStmts f)) i

/-- **A complete program**, for a file and its declarations. -/
structure Complete (options : CompileOptions) (file : Surface.File) (g : Globals) (p : Program) : Prop where
  /-- One function for each helper, in the order of the source. -/
  funcs : List.Forall₂ (fun f k => Gives g f (.helper k)) (helperDecls options (funcDecls file.decls)) p.funcs
  numbered : ∀ (i : Nat) (k : Func), p.funcs[i]? = some k → k.index = i
  vertex : p.vertex.isSome ↔ ∃ f ∈ funcDecls file.decls, f.name.name = options.vertexEntry
  /-- A function that is both entry points is the vertex entry point only. -/
  fragment : p.fragment.isSome ↔ options.fragmentEntry ≠ options.vertexEntry ∧
    ∃ f ∈ funcDecls file.decls, f.name.name = options.fragmentEntry
  bodies : ∀ b ∈ p.bodies, ∃ f ∈ funcDecls file.decls, Follows options file g p f b
  uniform : ∀ b ∈ p.bodies, ∀ i, .uniform i ∈ b.1.top.nodes → i < p.uniforms.length
  texture : ∀ b ∈ p.bodies, ∀ i, .texture i ∈ b.1.top.nodes → i < p.textureCount
  /-- Internal uniforms come first, and otherwise the order and the types are those of the source. -/
  uniforms : ∃ us, UniformsOf { options } (globalSpecs file.decls) us ∧
    p.uniformNames = (internalFirst us).map Prod.fst ∧ p.uniforms = (internalFirst us).map Prod.snd
  named : p.uniformNames.length = p.uniforms.length ∧ p.uniformNames.Nodup
  jumps : ∀ b ∈ p.bodies, ∀ s ∈ b.1.top.unlooped, s ≠ .next ∧ s ≠ .leave
  discards : ∀ b ∈ p.bodies, ∀ x ∈ b.1.top.places [], x.2 = .discard → b.1.kind = .fragment
  fronts : ∀ b ∈ p.bodies, ∀ args, .call (.builtin .frontFacing) args ∈ b.1.top.nodes → b.1.kind = .fragment

theorem Assembly.helpers_made (h : Assembly options file g cs p) :
    List.Forall₂ (fun f k => Gives g f (.helper k)) (helperDecls options (funcDecls file.decls)) p.funcs := by
  have hd := h.declared
  have hchecked := h.checked
  obtain ⟨unit, rfl⟩ := h.program
  exact hd.helpers hchecked

theorem Assembly.follows (h : Assembly options file g cs p) {b : Body × Ty} (hb : b ∈ p.bodies) :
    ∃ f ∈ funcDecls file.decls, Follows options file g p f b := by
  obtain ⟨f, hf, sig, hbody, hchecks⟩ := h.bodyOf hb
  have hnames : (bodyEnv g b.1.kind sig).funcNames = helperNames options file :=
    (fileGlobals_registers h.globals).1.funcs
  have htraced := body_traced hchecks.run
  rw [hnames] at htraced
  refine ⟨f, hf, ⟨sig, hbody.named, hchecks.run⟩, fun hk => ?_, fun hk => ?_, fun x hx => (htraced x hx).own,
    fun i hi => ?_⟩
  · exact hbody.named.symm.trans (h.declared.vertex sig (hchecks.vertex hk)).2.1
  · exact hbody.named.symm.trans (h.declared.fragment sig (hchecks.fragment hk)).2.1
  obtain ⟨x, hx, hown⟩ := Code.Block.mem_ownNodes b.1.top [] hi
  obtain ⟨o, ho, hi⟩ := mem_flatMap.mp hown
  obtain ⟨e, he, hrenders⟩ := (htraced x hx).own o ho
  have hcalled := (hrenders.names hi).mono he
  refine ⟨?_, hcalled⟩
  obtain ⟨_, _, _, name, -, -, hat⟩ := hcalled
  have hlt := (List.getElem?_eq_some_iff.mp hat).1
  rwa [helperNames, length_map, h.helpers_made.length_eq] at hlt

/-- **Accepted sources give complete programs.** -/
theorem Assembly.complete (h : Assembly options file g cs p) : Complete options file g p := by
  have hprod := h.produces
  have htyped := hprod.typed
  obtain ⟨hr, us, hus, hsorted, hdistinct⟩ := fileGlobals_registers h.globals
  have hrefers : ∀ b ∈ p.bodies, ∀ n ∈ b.1.top.nodes, n.Refers (p.setting true b.1.kind b.2) :=
    fun b hb n hn => (htyped.1 b hb).refers hn
  have hnames : p.uniformNames = g.uniforms.map Prod.fst := by
    obtain ⟨unit, rfl⟩ := h.program
    rfl
  refine ⟨h.helpers_made, fun i k hk => h.declared.index hr h.helpers_made hk, h.vertex_iff, h.fragment_iff,
    fun b hb => h.follows hb, fun b hb i hi => hrefers b hb _ hi, fun b hb i hi => hrefers b hb _ hi,
    ⟨us, hus, ?_, ?_⟩, ⟨?_, ?_⟩, fun b hb => (htyped.1 b hb).no_jump, fun b hb x hx heq => ?_,
    fun b hb args hn => hrefers b hb _ hn⟩
  · rw [hnames, hsorted]
  · rw [hprod.uniforms, hsorted]
  · rw [hnames, hprod.uniforms, length_map, length_map]
  · rw [hnames]
    exact hdistinct
  · obtain ⟨inLoop, Γ, hx⟩ := Code.Block.Typed.place _ [] (htyped.1 b hb) x hx
    rw [heq] at hx
    exact hx

end

end Check

/-! ## Accepted and refused sources -/

/-- **Accepted programs are closed and complete.** Every function of the file is in the program, what bodies refer to is
there and is what the source names, and uniforms stand in their order. A function that has the names of both entry
points is the vertex entry point only. A source that is refused for its meaning, and a body that is refused, have at
least one complaint. -/
theorem compile_complete (options : CompileOptions) (source : String) :
    (∀ p, compile options source = .ok p → ∃ file g, Surface.File.ofSource source = .ok file ∧
      Check.fileGlobals options file = .ok g ∧ Check.Complete options file g p) ∧
    (∀ ds, compile options source = .error (.meaning ds) → ds ≠ []) ∧
    ∀ g kind sig f ds, Check.body g kind sig f = .error ds → ds ≠ [] := by
  refine ⟨fun p hp => ?_, fun ds hds => Check.compile_error hds, Check.explained_body⟩
  obtain ⟨file, g, cs, hfile, h⟩ := Check.compile_assembly hp
  exact ⟨file, g, hfile, h.globals, h.complete⟩

/-- Options that give both entry points one name. -/
def sharedEntry : CompileOptions := { vertexEntry := "Main", fragmentEntry := "Main" }

theorem sharedEntry_no_fragment : ∃ source p file, compile sharedEntry source = .ok p ∧
    Surface.File.ofSource source = .ok file ∧
    ¬(p.fragment.isSome ↔ ∃ f ∈ Check.funcDecls file.decls, f.name.name = sharedEntry.fragmentEntry) := by
  let source := "package main\nfunc Main(p vec4) vec4 { return p }\n"
  obtain ⟨p, hp, hnone⟩ : ∃ p, compile sharedEntry source = .ok p ∧ ¬p.fragment.isSome :=
    exists_compile (by decide +kernel)
  obtain ⟨file, hfile, hany⟩ : ∃ file, Surface.File.ofSource source = .ok file ∧
      ∃ f ∈ Check.funcDecls file.decls, f.name.name = sharedEntry.fragmentEntry :=
    Surface.File.exists_ofSource (by decide +kernel)
  exact ⟨source, p, file, hp, hfile, fun hiff => hnone (hiff.mpr hany)⟩

/-- Uniforms that change places, and a function that is called before it is declared. -/
def callingSample : String := "package main
var B vec2
var __a [2]float
func g() vec4 {
	return f(B)
}
func f(v vec2) vec4 {
	return v.xyxy
}
func Fragment(p vec4) vec4 {
	return f(__a[1]*B) + g()
}
"

def emptyFunc : Surface.FuncDecl := ⟨⟨1, 1⟩, ⟨"f", ⟨1, 6⟩⟩, false, [], [], some (.mk ⟨1, 10⟩ [])⟩

set_option maxRecDepth 2000 in
theorem callingSample_complete :
    (∃ p, compile {} callingSample = .ok p ∧ p.uniformNames = ["__a", "B"] ∧ p.funcs.length = 2 ∧ ∃ file g,
      Surface.File.ofSource callingSample = .ok file ∧ Check.fileGlobals {} file = .ok g ∧ Check.Complete {} file g p) ∧
    (∃ ds, compile {} "package main\nvar x int\n" = .error (.meaning ds) ∧ ds ≠ []) ∧
    ∃ ds, Check.body {} .helper ⟨"f", ⟨1, 1⟩, [], [], .vec4⟩ emptyFunc = .error ds ∧ ds ≠ [] := by
  obtain ⟨p, hp, hnames, hlen⟩ : ∃ p, compile {} callingSample = .ok p ∧ p.uniformNames = ["__a", "B"] ∧
      p.funcs.length = 2 := exists_compile (by decide +kernel)
  refine ⟨⟨p, hp, hnames, hlen, (compile_complete {} callingSample).1 p hp⟩, ?_, ?_⟩
  · obtain ⟨unit, hunit, file, hfile, hrefused⟩ : ∃ unit, coordUnit "package main\nvar x int\n" = .ok unit ∧
        ∃ file, Surface.File.ofSource "package main\nvar x int\n" = .ok file ∧
          (Check.program {} unit file).isOk = false := by decide +kernel
    rcases hds : Check.program {} unit file with ds | p
    · have herror : compile {} "package main\nvar x int\n" = .error (.meaning ds) := by
        rw [compile, hunit, hfile]
        exact congrArg (Except.mapError CompileError.meaning) hds
      exact ⟨ds, herror, (compile_complete _ _).2.1 ds herror⟩
    · rw [hds] at hrefused
      cases hrefused
  · have hbody : Check.body {} .helper ⟨"f", ⟨1, 1⟩, [], [], .vec4⟩ emptyFunc =
        .error [⟨⟨1, 1⟩, .missingReturn "f"⟩] := rfl
    exact ⟨_, hbody, (compile_complete {} "").2.2 _ _ _ _ _ hbody⟩

end GameMedia.Shader
