import GameMedia.Proofs.Shader.Literals
import GameMedia.Proofs.Shader.Integers

/-!
# Numbers as they are printed

Constants are folded exactly and without bounds, and a float that is not integral is printed as a double. So the numbers
of an accepted source are printed as literals of their kinds, however small they are, but for those beyond the doubles.
-/

namespace GameMedia.Shader

open Literal

/-- The literal of a constant is a number of its kind if it is in range, and only then; else it is no number at all. -/
def Constant.Prints (c : Constant) : Prop :=
  (Lexes c.kind c.literal.toList ↔ c.InRange) ∧ (¬c.InRange → c.literal ∈ ["inf", "-inf"])

theorem Constant.prints (c : Constant) : c.Prints := by
  rcases c.literal_lexes with ⟨hin, hlex⟩ | ⟨hout, hinf⟩
  · exact ⟨iff_of_true hlex hin, fun hout => absurd hin hout⟩
  · refine ⟨iff_of_false (fun hlex => ?_) hout, fun _ => hinf⟩
    cases c with
    | float r =>
      obtain ⟨whole, f, power, htext, -⟩ := hlex
      have hpoint : '.' ∈ (Constant.float r).literal.toList := by simp [htext]
      rcases List.mem_pair.mp hinf with h | h <;> rw [h] at hpoint <;> exact absurd hpoint (by decide)
    | _ => exact hout trivial

/-- **Numbers in an accepted source.** Each has the kind that its place asks for, and so have the three constants of a
loop. They are printed as literals of this kind, floats apart that are beyond the doubles and not integral. -/
theorem numbers_of_compile {options : CompileOptions} {source : String} {p : Program}
    (h : compile options source = .ok p) : ∀ b ∈ p.bodies,
    (∀ c hint, .number c hint ∈ b.1.top.nodes → hint = .ofKind c.kind ∧ c.Prints) ∧
    ∀ x ∈ b.1.top.places [], ∀ k body, x.2 = .loop k body →
      ∀ c ∈ [k.start, k.stop, k.step], Check.defaultType c = k.ty ∧ c.Prints := by
  intro b hb
  obtain ⟨file, g, -, hp⟩ := Check.compile_ok h
  refine ⟨fun c hint hn => ⟨hp.nodes_fine b hb _ hn, c.prints⟩, fun x hx k body heq c hc => ⟨?_, c.prints⟩⟩
  obtain ⟨inLoop, Γ, htyped⟩ := Code.Block.Typed.place _ [] (hp.typed.1 b hb) x hx
  rw [heq] at htyped
  obtain ⟨-, hkinds, -⟩ : k.Typed := htyped.1
  exact hkinds c hc

/-- A tenth, and a number beyond all doubles. -/
def boundlessSample : String := "package main
func f() float {
	x := 0.1
	return x * (1e309 + 0.5)
}
"

/-- Whether a program has a number with a literal. -/
def Program.writes (p : Program) (s : String) : Bool :=
  p.bodies.any fun b => b.1.top.nodes.any fun
    | .number c _ => c.kind = .float && c.literal = s
    | _ => false

theorem Program.exists_number {p : Program} (h : p.writes s = true) :
    ∃ b ∈ p.bodies, ∃ c hint, .number c hint ∈ b.1.top.nodes ∧ c.kind = .float ∧ c.literal = s := by
  obtain ⟨b, hb, h⟩ := List.any_eq_true.mp h
  obtain ⟨n, hn, h⟩ := List.any_eq_true.mp h
  split at h
  · obtain ⟨hkind, hs⟩ := Bool.and_eq_true_iff.mp h
    exact ⟨b, hb, _, _, hn, of_decide_eq_true hkind, of_decide_eq_true hs⟩
  · cases h

theorem boundlessSample_prints : ∃ p, compile {} boundlessSample = .ok p ∧ ∃ b ∈ p.bodies, ∃ c hint,
    .number c hint ∈ b.1.top.nodes ∧ c.literal = "1.0000000000e-1" ∧ c.Prints := by
  obtain ⟨p, hp, h⟩ : ∃ p, compile {} boundlessSample = .ok p ∧ p.writes "1.0000000000e-1" = true :=
    exists_compile (by decide +kernel)
  obtain ⟨b, hb, c, hint, hn, -, hs⟩ := Program.exists_number h
  exact ⟨p, hp, b, hb, c, hint, hn, hs, ((numbers_of_compile hp b hb).1 c hint hn).2⟩

/-- It is accepted, and one of its numbers is printed as none. -/
theorem boundlessSample_not_lexes : ∃ p, compile {} boundlessSample = .ok p ∧ ∃ b ∈ p.bodies, ∃ c hint,
    .number c hint ∈ b.1.top.nodes ∧ c.literal = "inf" ∧ ¬Lexes c.kind c.literal.toList := by
  obtain ⟨p, hp, h⟩ : ∃ p, compile {} boundlessSample = .ok p ∧ p.writes "inf" = true :=
    exists_compile (by decide +kernel)
  obtain ⟨b, hb, c, hint, hn, hkind, hs⟩ := Program.exists_number h
  refine ⟨p, hp, b, hb, c, hint, hn, hs, ?_⟩
  rw [hkind, hs]
  rintro ⟨whole, f, power, htext, -⟩
  have hpoint : '.' ∈ "inf".toList := by simp [htext]
  exact absurd hpoint (by decide)

end GameMedia.Shader
