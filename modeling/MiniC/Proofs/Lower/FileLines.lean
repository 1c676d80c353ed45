import MiniC.Proofs.Lower.ProgramCode

/-!
# The lines of a file

The data section of a file is complete when the functions begin, and its text is the lines of the functions
in their order (`emits_of_functions`).
-/

set_option autoImplicit false

namespace MiniC

open MiniC.X86 (Line)

/-- The lines of the file: the data section and then the text. -/
def Emitter.lines (e : Emitter) : List Line := e.data.toList ++ .directive .text :: e.text.toList

namespace Lower

open Emit

/-- Lines that are the code of a function. -/
def Emits (s : Setting) (f : Typed.Function) (ls : List Line) : Prop :=
  ∃ e e', e.Idle ∧ perform (function f) s e = (.ok (), e') ∧ e'.text.toList = e.text.toList ++ ls

/-- The text of functions is their code, one after the other. -/
theorem emits_of_functions {s : Setting} {fs : List Typed.Function} {e e' : Emitter} (h : e.Idle)
    (hperform : perform (functions fs) s e = (.ok (), e')) :
    ∃ parts : List (List Line), e'.text.toList = e.text.toList ++ parts.flatten ∧
      List.Forall₂ (Emits s) fs parts := by
  induction fs generalizing e with
  | nil =>
    cases hperform
    exact ⟨[], (List.append_nil _).symm, .nil⟩
  | cons f fs ih =>
    rw [functions] at hperform
    obtain ⟨_, e1, h1, h2⟩ := perform_bind_eq_ok hperform
    obtain ⟨_, _, c⟩ := functionCode_of_perform h h1
    have htext := c.filled.text
    obtain ⟨parts, hrest, hparts⟩ := ih c.filled.idle h2
    refine ⟨Emitter.added e e1 :: parts, ?_, .cons ⟨e, e1, h, h1, htext⟩ hparts⟩
    rw [hrest, htext, List.flatten_cons, List.append_assoc]

theorem FileRun.text_eq {s : Setting} {p : Typed.Program} {e0 e1 e2 e : Emitter}
    (h : FileRun s p e0 e1 e2 e) :
    ∃ parts : List (List Line), e.text.toList = parts.flatten ++ [.directive .plainStack] ∧
      List.Forall₂ (Emits s) p.functions parts := by
  obtain ⟨parts, htext, hparts⟩ := emits_of_functions h.idle h.functions
  refine ⟨parts, ?_, hparts⟩
  rw [h.text, Array.toList_push, htext, h.begun]
  rfl

end Lower

end MiniC
