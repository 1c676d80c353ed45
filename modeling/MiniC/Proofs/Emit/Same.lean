import MiniC.Proofs.Emit.Level

/-!
# States with the same registers taken

Which registers are taken and how much is on the stack is all that calls look at in the emitter. Two states
that are the `Same` in this list the same registers as live.
-/

set_option autoImplicit false

namespace MiniC

namespace Emitter

open MiniC.Emit (Cell Reg)

/-- Two states in which the same registers are taken and as much is on the stack. -/
structure Same (e1 e2 : Emitter) : Prop where
  takes : ∀ c, e1.Takes c ↔ e2.Takes c
  pushed : e1.pushed = e2.pushed

namespace Same

variable {e1 e2 : Emitter}

theorem refl (e : Emitter) : Same e e := ⟨fun _ => Iff.rfl, rfl⟩

theorem status_eq (h : Same e1 e2) (view : Scalar) :
    e1.bank.val.status view = e2.bank.val.status view := by
  have hlen : (e1.bank.val.status view).length = (e2.bank.val.status view).length := by
    rw [e1.bank.property.length_status, e2.bank.property.length_status]
  refine List.ext_getElem hlen fun i h1 h2 => ?_
  -- a mark is `true` just when the cell is taken
  have hiff := h.takes (⟨view, i⟩ : Reg).cell
  rw [Takes, Takes, ← e1.bank.property.status_eq, ← e2.bank.property.status_eq] at hiff
  rw [List.getElem?_eq_getElem h1, List.getElem?_eq_getElem h2, Option.some_inj, Option.some_inj] at hiff
  exact Bool.eq_iff_iff.mpr hiff

end Same

end Emitter

namespace Emit

theorem mem_live_of_takes {e : Emitter} {r : Reg} (h : e.Takes r.cell) : r ∈ e.bank.val.live r.view := by
  have hstatus := (e.bank.property.status_eq r).mpr h
  rw [Bank.live, List.mem_filterMap]
  exact ⟨(true, r.slot), List.mem_zipIdx_iff_getElem?.mpr hstatus, rfl⟩

end Emit

end MiniC
