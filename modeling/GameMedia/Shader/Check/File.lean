import GameMedia.Shader.Check.Stmt
import GameMedia.Shader.Program

/-!
# Files

A file is checked in rounds: its uniforms, constants and types in their order, then the signatures of all functions,
so that any function can call any other, then the contracts of the entry points, and last the bodies. A complaint in
one of the first rounds ends the check. Each body is checked by itself, and the complaints about all of them are
given together.
-/

namespace GameMedia.Shader.Check

open Surface (Decl FuncDecl Group Ident Spec ValueSpec)

/-! ## Uniforms, constants and types -/

def atTop {α : Type} (g : Globals) (p : Check α) : Except Complaints α :=
  match p { globals := g } {} with
  | .ok (a, _) => .ok a
  | .error ds => .error ds

def complain {α : Type} (pos : Pos) (c : Complaint) : Except Complaints α := .error [⟨pos, c⟩]

/-- Names that the shader's user sets from outside begin with a capital letter, internal ones with two underscores. -/
def isExposed (name : String) : Bool :=
  match name.toList with
  | '_' :: '_' :: _ => true
  | c :: _ => c.isUpper
  | [] => false

def isInternal (name : String) : Bool := ['_', '_'].isPrefixOf name.toList

def addUniforms (g : Globals) (ty : Ty) : List Ident → Except Complaints Globals
  | [] => .ok g
  | n :: ns =>
    if !isExposed n.name then complain n.pos (.notExposed n.name)
    else if g.declares n.name then complain n.pos (.redeclared n.name)
    else addUniforms { g with uniforms := g.uniforms ++ [(n.name, ty)] } ty ns

def addConsts (g : Globals) (pos : Pos) : List NamedConst → Except Complaints Globals
  | [] => .ok g
  | c :: cs =>
    if g.declares c.name then complain pos (.redeclared c.name)
    else addConsts { g with consts := g.consts ++ [c] } pos cs

def addUniformSpec (g : Globals) (s : ValueSpec) : Except Complaints Globals :=
  if !s.values.isEmpty then complain s.pos .uniformWithValue
  else
    match s.ty with
    | none => complain s.pos .uniformWithoutType
    | some e => do addUniforms g (← atTop g (typeOf e)) s.names

def addSpec (g : Globals) (kind : Surface.GroupKind) (s : Spec) : Except Complaints Globals :=
  match kind, s with
  | .var, .value s => addUniformSpec g s
  | .const, .value s => do addConsts g s.pos (← atTop g (constSpec s))
  | .type, .type s => do
    let t ← atTop g (typeOf s.ty)
    if g.declares s.name.name then complain s.name.pos (.redeclared s.name.name)
    else return { g with types := g.types ++ [(s.name.name, t)] }
  | _, _ => .ok g

def addGroup (g : Globals) (d : Group) : Except Complaints Globals :=
  if d.kind = .imports then complain d.pos .importForbidden
  else d.specs.foldlM (fun g s => addSpec g d.kind s) g

def addGroups (g : Globals) : List Decl → Except Complaints Globals
  | [] => .ok g
  | .group d :: ds => do addGroups (← addGroup g d) ds
  | .func _ :: ds => addGroups g ds

/-- Internal uniforms come first. Otherwise they stay in the order of the source. -/
def sortUniforms (g : Globals) : Globals :=
  { g with
    uniforms := g.uniforms.filter (fun u => isInternal u.1) ++ g.uniforms.filter fun u => !isInternal u.1 }

/-! ## Signatures -/

/-- The parameters of a field list. Those without a name are called `unnamed`. -/
def params (g : Globals) (unnamed : String) : List Surface.Field → Except Complaints (List Param)
  | [] => .ok []
  | f :: fs => do
    let ty ← atTop g (typeOf f.ty)
    let here := match f.names with
      | [] => [⟨unnamed, ty, f.ty.pos⟩]
      | ns => ns.map fun n => ⟨n.name, ty, n.pos⟩
    return here ++ (← params g unnamed fs)

/-- One result without a name is returned, unless it is an array or the function is the vertex entry point. All others
are outputs. -/
def isReturned (g : Globals) (name : String) (p : Param) : Bool :=
  p.name == "" && p.ty.tag != .array && name != g.options.vertexEntry

def signature (g : Globals) (f : FuncDecl) : Except Complaints Signature := do
  let ins ← params g "_" f.params
  let outs ← params g "" f.results
  match outs with
  | [p] =>
    if isReturned g f.name.name p then return ⟨f.name.name, f.pos, ins, [], p.ty⟩
    else return ⟨f.name.name, f.pos, ins, outs, .none⟩
  | _ => return ⟨f.name.name, f.pos, ins, outs, .none⟩

def addFunc (g : Globals) (f : FuncDecl) : Except Complaints Globals := do
  let name := f.name.name
  if f.hasReceiver then complain f.pos (.unsupported .methods)
  else if name = "init" then complain f.pos (.unsupported .initFunction)
  else if f.body.isNone then complain f.pos .missingBody
  else if g.declaresFunc name then complain f.pos (.redeclaredFunction name)
  else if g.declares name then complain f.pos (.redeclared name)
  else
    let sig ← signature g f
    if name = g.options.vertexEntry then return { g with vertex := some sig }
    else if name = g.options.fragmentEntry then return { g with fragment := some sig }
    else return { g with funcs := g.funcs ++ [sig] }

def addFuncs (g : Globals) : List FuncDecl → Except Complaints Globals
  | [] => .ok g
  | f :: fs => do addFuncs (← addFunc g f) fs

/-! ## Entry points -/

/-- Complaints about the types of what flows between the stages. -/
def varyingComplaints (ps : List Param) : Complaints :=
  (ps.filter fun p => !p.ty.isFloatLike).map fun p => ⟨p.pos, .varyingType p.ty⟩

def vertexComplaints (v : Signature) : Complaints :=
  (if v.outs.head?.any fun p => p.ty = .vec4 then [] else [⟨v.pos, .vertexResult⟩]) ++ varyingComplaints (v.outs.drop 1)

/-- The fragment entry point takes what the vertex entry point gives. -/
def flowComplaints (v f : Signature) : Complaints :=
  let extra := match f.ins[max v.outs.length 1]? with
    | some p => [⟨p.pos, .noVertexOutput p.name⟩]
    | none => []
  extra ++ ((v.outs.zip f.ins).filter fun (o, p) => o.ty ≠ p.ty).map fun (o, p) =>
    ⟨p.pos, .fragmentArgument p.name o.ty p.ty⟩

/-- Without a vertex entry point, the fragment entry point takes a position and varyings. -/
def loneComplaints (f : Signature) : Complaints :=
  ((f.ins.take 1).filter fun p => p.ty ≠ .vec4).map (fun p => ⟨p.pos, .fragmentArgument p.name .vec4 p.ty⟩)
    ++ varyingComplaints (f.ins.drop 1)

def fragmentComplaints (v : Option Signature) (f : Signature) : Complaints :=
  (if f.outs.isEmpty && f.result = .vec4 then [] else [⟨f.pos, .fragmentResult⟩]) ++
    match v with
    | some v => flowComplaints v f
    | none => loneComplaints f

def entryComplaints (g : Globals) : Complaints :=
  (g.vertex.map vertexComplaints).getD [] ++ (g.fragment.map (fragmentComplaints g.vertex)).getD []

def attributes (g : Globals) : List Ty := (g.vertex.map fun v => v.ins.map Param.ty).getD []

/-- The types that flow from the vertex to the fragment stage. -/
def varyings (g : Globals) : List Ty :=
  match g.vertex, g.fragment with
  | some v, _ => (v.outs.drop 1).map Param.ty
  | none, some f => (f.ins.drop 1).map Param.ty
  | none, none => []

/-- The fragment entry point with the position and every varying among its inputs. -/
def completeFragment (flow : List Ty) (f : Signature) : Signature :=
  let ins := if f.ins.isEmpty then [⟨"_", .vec4, f.pos⟩] else f.ins
  { f with ins := ins ++ (flow.drop (ins.length - 1)).map fun t => ⟨"_", t, f.pos⟩ }

def completeEntries (g : Globals) : Globals :=
  { g with fragment := g.fragment.map (completeFragment (varyings g)) }

/-! ## Bodies -/

def bodyScope (sig : Signature) (readOnly : Bool) : Scope :=
  let vars := sig.ins.map (fun p => ⟨p.name, p.ty, p.pos, .param readOnly⟩)
    ++ sig.outs.map fun p => ⟨p.name, p.ty, p.pos, .param false⟩
  { vars, paramCount := vars.length }

def hasNamedOuts (sig : Signature) : Bool := sig.outs.head?.any fun p => p.name != ""

def frameOf (kind : BodyKind) (sig : Signature) : Frame where
  kind
  inCount := sig.ins.length
  outs := sig.outs.map Param.ty
  namedOuts := hasNamedOuts sig
  result := sig.result

def zeroOutputs (sig : Signature) : List Code.Stmt :=
  if hasNamedOuts sig then (List.range sig.outs.length).map fun i => .init (sig.ins.length + i) else []

def body (g : Globals) (kind : BodyKind) (sig : Signature) (f : FuncDecl) : Except Complaints Code.Block := do
  let ss := (f.body.map Surface.Block.stmts).getD []
  let start : State := { scope := bodyScope sig (kind != .helper), out := zeroOutputs sig }
  let check : Check Unit := do
    stmts false ss
    checkUnused (← get).scope
  let (_, st) ← check { globals := g, frame := frameOf kind sig } start
  if (!sig.outs.isEmpty || !sig.result.isNone) && !Code.stmtsReturn st.out then
    complain f.pos (.missingReturn f.name.name)
  else return .mk st.scope.localTypes st.scope.paramCount st.out

inductive CheckedFunc where
  | vertex (b : Code.Block)
  | fragment (b : Code.Block)
  | helper (f : Func)

def checkFunc (g : Globals) (f : FuncDecl) : Except Complaints CheckedFunc := do
  let name := f.name.name
  match g.vertex.filter (fun s => s.name == name), g.fragment.filter (fun s => s.name == name), g.funcIndex? name with
  | some sig, _, _ => return .vertex (← body g .vertex sig f)
  | none, some sig, _ => return .fragment (← body g .fragment sig f)
  | none, none, some index =>
    match g.funcs[index]? with
    | some sig =>
      return .helper ⟨index, sig.ins.map Param.ty, sig.outs.map Param.ty, sig.result, ← body g .helper sig f⟩
    | none => throw []
  | none, none, none => throw []

def collect {α : Type} : List (Except Complaints α) → Except Complaints (List α)
  | [] => .ok []
  | r :: rs =>
    match r, collect rs with
    | .ok a, .ok as => .ok (a :: as)
    | .ok _, .error ds => .error ds
    | .error ds, .ok _ => .error ds
    | .error ds, .error es => .error (ds ++ es)

def helpers : List CheckedFunc → List Func
  | [] => []
  | .helper f :: fs => f :: helpers fs
  | _ :: fs => helpers fs

def vertexBody? : List CheckedFunc → Option Code.Block
  | [] => none
  | .vertex b :: _ => some b
  | _ :: fs => vertexBody? fs

def fragmentBody? : List CheckedFunc → Option Code.Block
  | [] => none
  | .fragment b :: _ => some b
  | _ :: fs => fragmentBody? fs

/-! ## Programs -/

def funcDecls : List Decl → List FuncDecl
  | [] => []
  | .func f :: ds => f :: funcDecls ds
  | .group _ :: ds => funcDecls ds

/-- The declarations of a file, with everything that its bodies may refer to. -/
def fileGlobals (options : CompileOptions) (file : Surface.File) : Except Complaints Globals := do
  let g := sortUniforms (← addGroups { options } file.decls)
  let g ← addFuncs g (funcDecls file.decls)
  match entryComplaints g with
  | [] => return completeEntries g
  | ds => throw ds

def program (options : CompileOptions) (unit : CoordUnit) (file : Surface.File) : Except Complaints Program := do
  let g ← fileGlobals options file
  let fs ← collect ((funcDecls file.decls).map (checkFunc g))
  return {
    unit
    uniformNames := g.uniforms.map Prod.fst
    uniforms := g.uniforms.map Prod.snd
    textureCount := options.textureCount
    attributes := attributes g
    varyings := varyings g
    funcs := helpers fs
    vertex := vertexBody? fs
    fragment := fragmentBody? fs }

end GameMedia.Shader.Check
