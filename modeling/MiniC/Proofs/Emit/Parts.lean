import MiniC.Proofs.X86.Frame

/-!
# Parts of the machine behind the bank

A cell of the bank is a register of the machine, and different cells are different registers. What is live is
what the cells are that are taken.
-/

set_option autoImplicit false

namespace MiniC.Emit

open X86 (Gpr Part)

theorem gpr_inj {r r' : Reg} (h : r.slot < 4) (h' : r'.slot < 4) (heq : r.gpr = r'.gpr) : r.slot = r'.slot := by
  have hall : ∀ i < 4, ∀ j < 4, (valueGprs[i]?).getD .rbx = (valueGprs[j]?).getD .rbx → i = j := by decide
  exact hall r.slot h r'.slot h' heq

theorem xmm_inj {r r' : Reg} (h : r.slot < 4) (h' : r'.slot < 4) (heq : r.xmm = r'.xmm) : r.slot = r'.slot := by
  have hall : ∀ i < 4, ∀ j < 4, (valueXmms[i]?).getD (valueXmms.headD resultXmm) =
      (valueXmms[j]?).getD (valueXmms.headD resultXmm) → i = j := by decide
  exact hall r.slot h r'.slot h' heq

/-- The float registers of the bank carry neither arguments nor results. -/
theorem Reg.xmm_mem (r : Reg) : r.xmm ∈ valueXmms := by
  unfold Reg.xmm
  cases h : valueXmms[r.slot]? with
  | none => decide
  | some i => exact List.mem_of_getElem? h

/-- The parts of the machine that are a cell of the bank. -/
def Cell.parts : Cell → List Part
  | .general i => [.gpr (Reg.mk .long i).gpr, .low (Reg.mk .long i).gpr]
  | .float i => [.xmm (Reg.mk .float i).xmm]

/-- The parts of the machine that are cells which are taken. -/
def Live (e : Emitter) (p : Part) : Prop := ∃ c, e.Takes c ∧ p ∈ c.parts

/-- A part of the machine that is no cell of the bank. -/
def isOutside : Part → Bool
  | .gpr g | .low g => !valueGprs.contains g
  | .xmm i => !valueXmms.contains i
  | .flags => true

section Cells

variable {e e0 : Emitter} {r : Reg} {c c' : Cell} {p : Part}

theorem gpr_mem_parts (h : r.view.isInteger = true) : .gpr r.gpr ∈ r.cell.parts := by
  rw [Reg.cell_eq_of_isInteger h]
  exact List.mem_cons_self

theorem low_mem_parts (h : r.view.isInteger = true) : .low r.gpr ∈ r.cell.parts := by
  rw [Reg.cell_eq_of_isInteger h]
  exact List.mem_cons_of_mem _ List.mem_cons_self

theorem xmm_mem_parts (h : r.view = .float) : .xmm r.xmm ∈ r.cell.parts := by
  rw [Reg.cell_of_float h]
  exact List.mem_cons_self

theorem gpr_mem_valueGprs (r : Reg) : r.gpr ∈ valueGprs := by
  unfold Reg.gpr
  cases h : valueGprs[r.slot]? with
  | none => decide
  | some g => exact List.mem_of_getElem? h

theorem isOutside_of_mem_parts (h : p ∈ c.parts) : isOutside p = false := by
  cases c with
  | general i =>
    have hg := gpr_mem_valueGprs ⟨.long, i⟩
    rcases List.mem_cons.mp h with rfl | h
    · simp [isOutside, hg]
    · rw [List.mem_singleton.mp h]
      simp [isOutside, hg]
  | float i =>
    rw [List.mem_singleton.mp h]
    simp [isOutside, Reg.xmm_mem]

/-- Different cells that are taken have no part in common. -/
theorem eq_of_mem_parts (hc : e.Takes c) (hc' : e.Takes c') (hp : p ∈ c.parts) (hp' : p ∈ c'.parts) :
    c = c' := by
  cases c with
  | general i =>
    have hi : i < 4 := @Emitter.slot_lt_of_takes e ⟨.long, i⟩ hc
    cases c' with
    | general j =>
      have hj : j < 4 := @Emitter.slot_lt_of_takes e ⟨.long, j⟩ hc'
      have heq : (Reg.mk .long i).gpr = (Reg.mk .long j).gpr := by
        simp only [Cell.parts, List.mem_cons, List.not_mem_nil, or_false] at hp hp'
        rcases hp with hp | hp <;> rcases hp' with hp' | hp'
        · exact Part.gpr.inj (hp.symm.trans hp')
        · cases hp.symm.trans hp'
        · cases hp.symm.trans hp'
        · exact Part.low.inj (hp.symm.trans hp')
      exact congrArg Cell.general (gpr_inj hi hj heq)
    | float j =>
      simp only [Cell.parts, List.mem_cons, List.not_mem_nil, or_false] at hp hp'
      rcases hp with rfl | rfl <;> cases hp'
  | float i =>
    have hi : i < 4 := @Emitter.slot_lt_of_takes e ⟨.float, i⟩ hc
    cases c' with
    | general j =>
      simp only [Cell.parts, List.mem_cons, List.not_mem_nil, or_false] at hp hp'
      rcases hp' with rfl | rfl <;> cases hp
    | float j =>
      have hj : j < 4 := @Emitter.slot_lt_of_takes e ⟨.float, j⟩ hc'
      have heq : (Reg.mk .float i).xmm = (Reg.mk .float j).xmm := by
        rw [List.mem_singleton.mp hp] at hp'
        exact Part.xmm.inj (List.mem_singleton.mp hp')
      exact congrArg Cell.float (xmm_inj hi hj heq)

end Cells

end MiniC.Emit
