import GameMedia.Proofs.Shader.Rules

/-!
# Rendering of expressions

Where the calls in checked code come from. An expression of the source is rendered part by part: an operator becomes an
operator on what its operands become, and a call of a function becomes the call of the function that has the name in the
source. Constants are folded and results of statements are variables, so any part may have become code without calls.
The relation knows the functions of the program by their names, in the order of their numbers.

The rules for values keep the relation. None of them exchanges operands or arguments.
-/

namespace GameMedia.Shader

open List Except

namespace Surface

/-! ## Expressions of the source -/

mutual

/-- An expression and what stands in it, types and names that are called apart. -/
def Expr.parts : Expr → List Expr
  | .composite ty elems => .composite ty elems :: partsAll elems
  | .paren pos e => .paren pos e :: e.parts
  | .selector base name => .selector base name :: base.parts
  | .index base i => .index base i :: (base.parts ++ i.parts)
  | .call callee args spread => .call callee args spread :: partsAll args
  | .unary pos op e => .unary pos op e :: e.parts
  | .binary op l r => .binary op l r :: (l.parts ++ r.parts)
  | e => [e]

def partsAll : List Expr → List Expr
  | [] => []
  | e :: es => e.parts ++ partsAll es

end

theorem parts_subset_partsAll (h : e ∈ es) : e.parts ⊆ partsAll es := by
  induction es with
  | nil => cases h
  | cons a es ih =>
    rcases mem_cons.mp h with rfl | h
    · exact subset_append_left _ _
    · exact List.Subset.trans (ih h) (subset_append_right _ _)

def operation (lhs : List Expr) (op : AssignOp) (rhs : List Expr) : List Expr :=
  match lhs, op, rhs with
  | [l], .compound op, [r] => [.binary op l r]
  | _, _, _ => []

def Spec.parts : Spec → List Expr
  | .value s => partsAll s.values
  | _ => []

mutual

/-- The expressions that stand in a statement, also in blocks inside it. One more or less is an operation with one. -/
def Stmt.parts : Stmt → List Expr
  | .decl g => g.specs.flatMap Spec.parts
  | .assign _ lhs op rhs => partsAll lhs ++ partsAll rhs ++ operation lhs op rhs
  | .step pos e up => (Expr.binary (if up then .add else .sub) e (.literal pos .int "1")).parts
  | .expr _ e => e.parts
  | .block b => Block.parts b
  | .cond _ init test body other => clauseParts init ++ test.parts ++ Block.parts body ++ clauseParts other
  | .loop _ _ _ _ body => Block.parts body
  | .ret _ es => partsAll es
  | _ => []

def Block.parts : Block → List Expr
  | .mk _ ss => stmtsParts ss

def clauseParts : Option Stmt → List Expr
  | none => []
  | some s => s.parts

def stmtsParts : List Stmt → List Expr
  | [] => []
  | s :: ss => s.parts ++ stmtsParts ss

end

end Surface

/-! ## The relation -/

open Surface (BinaryOp UnaryOp partsAll)

theorem Code.Expr.mem_nodesAll : n ∈ Code.Expr.nodesAll os ↔ ∃ o ∈ os, n ∈ o.nodes := by
  induction os with
  | nil => simp [Code.Expr.nodesAll]
  | cons o os ih => simp [Code.Expr.nodesAll, ih]

def Code.Expr.IsPlain (o : Code.Expr) : Prop := ∀ i, Code.Expr.func i ∉ o.nodes

/-- **What an expression of the source may have become.** A name that is called is one of the `names`, the functions of
the program, or that of a function which is built in. The outputs of a call are variables behind its arguments. -/
inductive Renders (names : List String) : Surface.Expr → Code.Expr → Prop
  | plain {e : Surface.Expr} {o : Code.Expr} : o.IsPlain → Renders names e o
  | paren {pos : Pos} {e : Surface.Expr} {o : Code.Expr} : Renders names e o → Renders names (.paren pos e) o
  | unary {pos : Pos} {op : UnaryOp} {code : Op} {e : Surface.Expr} {o : Code.Expr} :
      Renders names e o → Renders names (.unary pos op e) (.unary code o)
  | binary {op : BinaryOp} {code : Op} {l r : Surface.Expr} {a b : Code.Expr} :
      Renders names l a → Renders names r b → Renders names (.binary op l r) (.binary code a b)
  | selector {base : Surface.Expr} {name : Surface.Ident} {o : Code.Expr} :
      Renders names base o → Renders names (.selector base name) (.field o (.swizzle name.name))
  | index {base i : Surface.Expr} {o k : Code.Expr} :
      Renders names base o → Renders names i k → Renders names (.index base i) (.index o k)
  | conversion {callee arg : Surface.Expr} {spread : Bool} {o : Code.Expr} :
      (∀ name, callee.name? = some name → name ∉ names) →
      Renders names arg o → Renders names (.call callee [arg] spread) o
  | builtin {callee : Surface.Expr} {args : List Surface.Expr} {spread : Bool} {f : Builtin} {os : List Code.Expr} :
      (∀ name, callee.name? = some name → name ∉ names) →
      args.length = os.length → (∀ a o, (a, o) ∈ args.zip os → Renders names a o) →
      Renders names (.call callee args spread) (.call (.builtin f) os)
  | func {callee : Surface.Expr} {args : List Surface.Expr} {spread : Bool} {name : String} {i : Nat}
      {os outs : List Code.Expr} :
      callee.name? = some name → names[i]? = some name →
      args.length = os.length → (∀ a o, (a, o) ∈ args.zip os → Renders names a o) →
      (∀ o ∈ outs, ∃ j, o = .localVar j) →
      Renders names (.call callee args spread) (.call (.func i) (os ++ outs))

/-- What is in the other list stands beside something. -/
theorem exists_mem_zip {α β : Type} {as : List α} {bs : List β} (hlen : as.length = bs.length) {b : β} (hb : b ∈ bs) :
    ∃ a, (a, b) ∈ as.zip bs := by
  obtain ⟨i, hi, rfl⟩ := getElem_of_mem hb
  exact ⟨as[i], mem_iff_getElem.mpr ⟨i, by simpa [hlen] using hi, by simp⟩⟩

def Names (names : List String) (es : List Surface.Expr) (i : Nat) : Prop :=
  ∃ callee args spread name, .call callee args spread ∈ es ∧ callee.name? = some name ∧ names[i]? = some name

theorem Names.mono (h : Names names es i) (hsub : es ⊆ es') : Names names es' i := by
  obtain ⟨callee, args, spread, name, hmem, hname⟩ := h
  exact ⟨callee, args, spread, name, hsub hmem, hname⟩

/-- **A function that is called in the code has the name of a call in the source.** -/
theorem Renders.names {names : List String} {e : Surface.Expr} {o : Code.Expr} (h : Renders names e o)
    (hi : .func i ∈ o.nodes) : Names names e.parts i := by
  induction h with
  | plain hp => exact absurd hi (hp i)
  | paren _ ih => exact (ih hi).mono (subset_cons_self _ _)
  | unary _ ih => exact (ih ((mem_cons.mp hi).resolve_left nofun)).mono (subset_cons_self _ _)
  | binary _ _ ihl ihr =>
    rcases mem_append.mp ((mem_cons.mp hi).resolve_left nofun) with hi | hi
    · exact (ihl hi).mono (subset_cons_of_subset _ (subset_append_left _ _))
    · exact (ihr hi).mono (subset_cons_of_subset _ (subset_append_right _ _))
  | selector _ ih =>
    rcases mem_append.mp ((mem_cons.mp hi).resolve_left nofun) with hi | hi
    · exact (ih hi).mono (subset_cons_self _ _)
    · exact nomatch mem_singleton.mp hi
  | index _ _ ihb ihk =>
    rcases mem_append.mp ((mem_cons.mp hi).resolve_left nofun) with hi | hi
    · exact (ihb hi).mono (subset_cons_of_subset _ (subset_append_left _ _))
    · exact (ihk hi).mono (subset_cons_of_subset _ (subset_append_right _ _))
  | conversion _ _ ih => exact (ih hi).mono (subset_cons_of_subset _ (subset_append_left _ _))
  | builtin _ hlen _ ih =>
    rcases mem_append.mp ((mem_cons.mp hi).resolve_left nofun) with hi | hi
    · exact nomatch mem_singleton.mp hi
    obtain ⟨o, ho, hi⟩ := Code.Expr.mem_nodesAll.mp hi
    obtain ⟨a, hz⟩ := exists_mem_zip hlen ho
    have hsub := Surface.parts_subset_partsAll (of_mem_zip hz).1
    exact (ih a o hz hi).mono (subset_cons_of_subset _ hsub)
  | func hcallee hindex hlen _ houts ih =>
    rcases mem_append.mp ((mem_cons.mp hi).resolve_left nofun) with hi | hi
    -- the function itself
    · obtain rfl := Code.Expr.func.inj (mem_singleton.mp hi)
      exact ⟨_, _, _, _, mem_cons_self, hcallee, hindex⟩
    obtain ⟨o, ho, hi⟩ := Code.Expr.mem_nodesAll.mp hi
    rcases mem_append.mp ho with ho | ho
    · obtain ⟨a, hz⟩ := exists_mem_zip hlen ho
      have hsub := Surface.parts_subset_partsAll (of_mem_zip hz).1
      exact (ih a o hz hi).mono (subset_cons_of_subset _ hsub)
    · obtain ⟨j, rfl⟩ := houts o ho
      exact nomatch mem_singleton.mp hi

namespace Check

variable {names : List String} {e : Surface.Expr} {v w : Value} {op : BinaryOp} {o : Code.Expr} {code : Op}

/-! ## Code without calls -/

theorem renders_number (c : Constant) (h : Code.Hint) : Renders names e (.number c h) :=
  .plain fun _ hj => nomatch mem_singleton.mp hj

theorem renders_local (i : Nat) : Renders names e (.localVar i) :=
  .plain fun _ hj => nomatch mem_singleton.mp hj

theorem renders_uniform (i : Nat) : Renders names e (.uniform i) :=
  .plain fun _ hj => nomatch mem_singleton.mp hj

theorem renders_texture (i : Nat) : Renders names e (.texture i) :=
  .plain fun _ hj => nomatch mem_singleton.mp hj

theorem renders_constant (c : Constant) (t : Ty) : Renders names e (Value.ofConstant c t).expr := by
  unfold Value.ofConstant
  split
  · exact renders_number c _
  · exact renders_number c _

/-- The hint of a number does not matter. -/
theorem Renders.retype {op : Op} {n : Constant} {h h' : Code.Hint} {count : Code.Expr}
    (hr : Renders names e (.binary op (.number n h) count)) : Renders names e (.binary op (.number n h') count) := by
  generalize ho : Code.Expr.binary op (.number n h) count = o at hr
  induction hr with
  | plain hp =>
    subst ho
    refine .plain fun i hi => hp i ?_
    simpa [Code.Expr.nodes] using hi
  | paren _ ih => exact .paren (ih ho)
  | unary _ _ => cases ho
  | binary _ hb _ _ =>
    obtain ⟨rfl, -, rfl⟩ := Code.Expr.binary.inj ho
    exact .binary (renders_number n h') hb
  | selector _ _ | index _ _ _ _ => cases ho
  | conversion hname _ ih => exact .conversion hname (ih ho)
  | builtin _ _ _ _ | func _ _ _ _ _ _ => cases ho

/-! ## Conversions -/

theorem settleShift_renders (hv : Renders names e v.expr) (h : settleShift v t = .ok w) : Renders names e w.expr := by
  obtain ⟨-, rfl | ⟨op, n, count, rfl, -, rfl⟩⟩ := settleShift_cases h
  · exact hv
  · exact Renders.retype hv

theorem settle_renders (hv : Renders names e v.expr) (h : settle v t place = .ok o) :
    Renders names e o := by
  rcases settle_cases h with ⟨c, c', -, -, rfl⟩ | hs
  · exact renders_number _ _
  · exact settleShift_renders hv hs

theorem settleDefault_renders (hv : Renders names e v.expr) (h : settleDefault v = .ok w) : Renders names e w.expr := by
  rcases settleDefault_cases h with ⟨c, c', -, -, rfl⟩ | ⟨_, _, -, hs, -⟩
  · exact renders_number _ _
  · exact settleShift_renders hv hs

/-! ## Operators -/

theorem unary_renders {op : UnaryOp} (hv : Renders names e v.expr) (h : unary op code v = .ok w) :
    Renders names (.unary pos op e) w.expr := by
  rcases unary_cases h with ⟨c, c', -, -, rfl⟩ | ⟨u, hu, -, -, rfl⟩
  · exact renders_constant _ _
  · exact .unary (settleShift_renders hv hu)

theorem adopt_renders (hv : Renders names e v.expr) (h : adopt v t = .ok w) : Renders names e w.expr := by
  rcases adopt_cases h with ⟨c, s, c', -, -, -, rfl⟩ | ⟨rfl, -⟩
  · exact renders_number _ _
  · exact hv

theorem shiftCount_renders (hv : Renders names e v.expr) (h : shiftCount v = .ok w) : Renders names e w.expr := by
  obtain ⟨_, t, rfl, -, ⟨c, n, -, -, rfl, -⟩ | hs⟩ := shiftCount_cases h
  · exact renders_number _ _
  · exact settleShift_renders hv hs

section

variable {op : BinaryOp} {l r : Surface.Expr} {a b : Value}

/-- A shift that is left pending has a number on its left. -/
theorem shift_renders (ha : Renders names l a.expr) (hb : Renders names r b.expr) (h : shift op a b = .ok w) :
    Renders names (.binary op l r) w.expr := by
  obtain ⟨n, hn, hways⟩ := shift_cases h
  have hn := shiftCount_renders hb hn
  rcases hways with ⟨x, y, c, -, -, -, -, rfl, -⟩ | ⟨c, k, -, -, -, rfl⟩ | ⟨u, t, -, -, hu, -, rfl⟩
  · exact renders_constant _ _
  · exact .binary (renders_number _ _) hn
  · exact .binary (settleShift_renders ha hu) hn

theorem combine_renders (ha : Renders names l a.expr) (hb : Renders names r b.expr) (h : combine op a b = .ok w) :
    Renders names (.binary op l r) w.expr := by
  obtain ⟨a', b', _, _, ha', hb', ⟨x, y, -, -, hw⟩ | ⟨l', r', t, -, hl, hr, -, rfl⟩⟩ := combine_cases h
  · rcases fold_cases hw with ⟨r, rfl⟩ | ⟨t, _, _, c, -, -, -, rfl, -⟩
    · exact renders_number _ _
    · exact renders_constant _ _
  · exact .binary (adopt_renders (settleShift_renders ha ha') hl) (adopt_renders (settleShift_renders hb hb') hr)

/-- **An operator becomes an operator on what its operands become**, or a constant. -/
theorem binary_renders (ha : Renders names l a.expr) (hb : Renders names r b.expr) (h : binary op a b = .ok w) :
    Renders names (.binary op l r) w.expr := by
  cases op with
  | andNot => cases h
  | shl | shr => exact shift_renders ha hb h
  | _ => exact combine_renders ha hb h

end

/-! ## Parts of values -/

theorem swizzle_renders (hv : Renders names e v.expr)
    (h : swizzle v name.name written = .ok w) : Renders names (.selector e name) w.expr := by
  obtain ⟨t, -, rfl⟩ := swizzle_cases h
  exact .selector hv

theorem position_renders {length : Nat} (hv : Renders names e v.expr) (h : position v length = .ok o) :
    Renders names e o :=
  settle_renders hv (position_settle h)

/-! ## Calls of built-in functions -/

/-- Each value is one that its argument may have become. -/
def RendersAll (names : List String) (args : List Surface.Expr) (vs : List Value) : Prop :=
  List.Forall₂ (fun a v => Renders names a v.expr) args vs

section

variable {args : List Surface.Expr} {vs ws : List Value}

theorem RendersAll.length_eq (h : RendersAll names args vs) : args.length = (vs.map Value.expr).length := by
  rw [length_map]
  exact List.Forall₂.length_eq h

theorem RendersAll.zip (h : RendersAll names args vs) :
    ∀ a o, (a, o) ∈ args.zip (vs.map Value.expr) → Renders names a o := by
  intro a o hmem
  have hmap : List.Forall₂ (Renders names) args (vs.map Value.expr) := forall₂_map_right_iff.mpr h
  exact (forall₂_iff_zip.mp hmap).2 hmem

theorem convertConsts_renders (hvs : RendersAll names args vs) (h : convertConsts s vs = .ok ws) :
    RendersAll names args ws := by
  induction hvs generalizing ws with
  | nil =>
    cases h
    exact .nil
  | @cons a v args vs hv _ ih =>
    cases v with
    | const c =>
      unfold convertConsts at h
      split at h
      · cases h
      · obtain ⟨us, hus, h⟩ := rule_bind_ok h
        cases h
        exact .cons (renders_number _ _) (ih hus)
    | shift op n count =>
      obtain ⟨us, hus, h⟩ := rule_bind_ok h
      cases h
      exact .cons hv (ih hus)
    | typed o t =>
      obtain ⟨us, hus, h⟩ := rule_bind_ok h
      cases h
      exact .cons hv (ih hus)

variable {callee : Surface.Expr} {spread : Bool} {f : Builtin}

variable (hname : ∀ name, callee.name? = some name → name ∉ names)

include hname

theorem callBuiltin_renders (hvs : RendersAll names args vs) :
    Renders names (.call callee args spread) (callBuiltin f vs t).expr :=
  .builtin hname hvs.length_eq hvs.zip

variable (hvs : RendersAll names args vs)

include hvs

/-- **A call of a built-in function becomes a call on what its arguments become**, or it leaves none behind. -/
theorem builtinValue_renders (h : builtinValue f vs = .ok w) :
    Renders names (.call callee args spread) w.expr := by
  rcases builtinValue_cases h with ⟨-, a, -, -, rfl⟩ | ⟨t, v, rfl, hc⟩ | ⟨t, rfl⟩ | ⟨s, ws, t, hws, rfl⟩
  · exact renders_number _ _
  -- a conversion to the type that a value has already leaves no call behind
  · rcases conversion_cases hc with ⟨c, c', -, -, rfl⟩ | ⟨-, -, rfl | ⟨-, rfl⟩⟩
    · exact renders_number _ _
    · obtain ⟨a, _, hv, hnil, rfl⟩ := forall₂_cons_right_iff.mp hvs
      obtain rfl := forall₂_nil_right_iff.mp hnil
      exact .conversion hname hv
    · exact callBuiltin_renders hname hvs
  · exact callBuiltin_renders hname hvs
  · exact callBuiltin_renders hname (convertConsts_renders hvs hws)

end

end Check

end GameMedia.Shader
