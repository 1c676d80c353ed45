import MiniC.Emit.Basic
import Mathlib

/-!
# Which registers are taken

The three integer views of a slot are one physical register, so what the emitter owns is best said
of *cells*: a general register of the bank or a floating-point one. This module says of each
primitive operation of the emitter what it gives and which state it leaves, as equations for
`Emit.exec`. An operation on a handle is described for a handle whose cell is taken; this is the
only thing that `Bank.check` asks.

`Emitter.take` and `Emitter.release` are the two changes of the bank, and `Emitter.emit` is the one
change of the text. Later modules compute with these three and do not open the bank again.
-/

set_option autoImplicit false

namespace MiniC.Emit

open MiniC.X86 (Gpr Register Operand Instr Line)

/-- A physical register of the bank. -/
inductive Cell where
  | general (slot : Nat)
  | float (slot : Nat)
deriving DecidableEq, Repr

/-- The physical register behind a handle. -/
def Reg.cell (r : Reg) : Cell := if r.view.isInteger then .general r.slot else .float r.slot

/-- The general register of a slot. -/
def Reg.gpr (r : Reg) : Gpr := (valueGprs[r.slot]?).getD .rbx

/-- The floating-point register of a slot. -/
def Reg.xmm (r : Reg) : Fin 16 := (valueXmms[r.slot]?).getD (valueXmms.headD resultXmm)

/-- The register behind a handle, as wide as its view. -/
def Reg.register (r : Reg) : Register :=
  match r.view with
  | .int => .long r.gpr
  | .char => .byte r.gpr
  | .long => .quad r.gpr
  | .float => .xmm r.xmm

/-- Handles of one slot and one kind of view have one cell. -/
theorem Reg.cell_eq_of_isInteger {r : Reg} (h : r.view.isInteger = true) :
    r.cell = .general r.slot := by
  simp [Reg.cell, h]

theorem Reg.cell_of_float {r : Reg} (h : r.view = .float) : r.cell = .float r.slot := by
  simp [Reg.cell, h, Scalar.isInteger]

/-- Seeing an integer register as another integer type does not change its cell. -/
theorem Reg.cell_as {r : Reg} {view : Scalar} (h : r.view.isInteger = true)
    (hv : view.isInteger = true) : (⟨view, r.slot⟩ : Reg).cell = r.cell := by
  rw [Reg.cell_eq_of_isInteger h, Reg.cell_eq_of_isInteger (r := ⟨view, r.slot⟩) hv]

theorem Reg.as_of_isInteger {r : Reg} {v : Scalar} (h : r.view.isInteger = true)
    (hv : v.isInteger = true) : r.as v = .ok ⟨v, r.slot⟩ := by
  simp [Reg.as, h, hv]

namespace Bank

variable {ρ : Type} {file : RegisterFile ρ}

/-- The bank has given the cell out. -/
def Takes (b : Bank file) : Cell → Prop
  | .general i => b.int[i]? = some true
  | .float i => b.float[i]? = some true

theorem Coherent.status_eq {b : Bank file} (h : b.Coherent) (r : Reg) :
    (b.status r.view)[r.slot]? = some true ↔ b.Takes r.cell := by
  cases hv : r.view <;>
    simp [Bank.status, Reg.cell, hv, Scalar.isInteger, Takes, h.char_eq, h.long_eq]

/-- Every view of a coherent bank has its full number of slots. -/
theorem Coherent.length_status {b : Bank file} (h : b.Coherent) (view : Scalar) :
    (b.status view).length = file.slots view := by
  cases view <;>
    simp [Bank.status, RegisterFile.slots, Scalar.isInteger, h.char_eq, h.long_eq,
      h.int_length, h.float_length]

theorem Coherent.slot_lt {b : Bank file} (h : b.Coherent) {r : Reg} (ht : b.Takes r.cell) :
    r.slot < file.slots r.view := by
  rw [← h.length_status]
  exact (List.getElem?_eq_some_iff.mp ((h.status_eq r).mpr ht)).1

theorem Coherent.check_eq_ok {b : Bank file} (h : b.Coherent) {r : Reg} (ht : b.Takes r.cell) :
    b.check r = .ok () := by
  have hs := h.slot_lt ht
  have ha := (h.status_eq r).mpr ht
  simp [Bank.check, Bank.isAllocated, ha, Nat.not_le.mpr hs]

theorem takes_mark_true {b : Bank file} (h : b.Coherent) {r : Reg}
    (hs : r.slot < file.slots r.view) (c : Cell) :
    (b.mark r.view r.slot true).Takes c ↔ c = r.cell ∨ b.Takes c := by
  have hi := h.int_length
  have hf := h.float_length
  cases hv : r.view <;> cases c <;>
    simp [Bank.mark, Takes, Reg.cell, hv, Scalar.isInteger, RegisterFile.slots] at hs ⊢ <;>
    grind

theorem takes_mark_false {b : Bank file} (r : Reg) (c : Cell) :
    (b.mark r.view r.slot false).Takes c ↔ c ≠ r.cell ∧ b.Takes c := by
  cases hv : r.view <;> cases c <;>
    simp [Bank.mark, Takes, Reg.cell, hv, Scalar.isInteger] <;> grind

end Bank

end MiniC.Emit

namespace MiniC.Emitter

open MiniC.Emit (Cell Reg)
open MiniC.X86 (Line Instr)

/-- The emitter has given the cell out. -/
def Takes (e : Emitter) (c : Cell) : Prop := e.bank.val.Takes c

/-- How many more times registers have been taken than given back. -/
def net (e : Emitter) : Int := e.bank.val.net

/-- The emitter after it has appended lines. -/
def append (e : Emitter) (lines : List Line) : Emitter :=
  { e with text := e.text ++ lines.toArray }

/-- The emitter after it has appended instructions. -/
def emit (e : Emitter) (is : List Instr) : Emitter := e.append (is.map .instr)

/-- The emitter after a register was taken. -/
def take (e : Emitter) (r : Reg) : Emitter :=
  { e with
    bank := ⟨{ e.bank.val.mark r.view r.slot true with
        allocations := e.bank.val.allocations + 1 },
      have m := e.bank.property.mark r.view r.slot true
      ⟨m.char_eq, m.long_eq, m.int_length, m.float_length⟩⟩ }

/-- The emitter after a register was given back. -/
def release (e : Emitter) (r : Reg) : Emitter :=
  { e with
    bank := ⟨{ e.bank.val.mark r.view r.slot false with frees := e.bank.val.frees + 1 },
      have m := e.bank.property.mark r.view r.slot false
      ⟨m.char_eq, m.long_eq, m.int_length, m.float_length⟩⟩ }

/-- The emitter with another number of words on the stack. -/
def withPushed (e : Emitter) (words : Nat) : Emitter := { e with pushed := words }

/-- The register that is taken next for values of a type. -/
def fresh? (e : Emitter) (view : Scalar) : Option Reg :=
  ((e.bank.val.status view).findIdx? (!·)).map fun slot => ⟨view, slot⟩

variable (e : Emitter) (r : Reg) (ls : List Line) (is : List Instr)

@[simp] theorem append_bank : (e.append ls).bank = e.bank := rfl
@[simp] theorem append_text : (e.append ls).text = e.text ++ ls.toArray := rfl
@[simp] theorem append_data : (e.append ls).data = e.data := rfl
@[simp] theorem append_pushed : (e.append ls).pushed = e.pushed := rfl
@[simp] theorem append_warnings : (e.append ls).warnings = e.warnings := rfl
@[simp] theorem append_labels : (e.append ls).labels = e.labels := rfl

@[simp] theorem emit_bank : (e.emit is).bank = e.bank := rfl
@[simp] theorem emit_text : (e.emit is).text = e.text ++ (is.map Line.instr).toArray := rfl
@[simp] theorem emit_data : (e.emit is).data = e.data := rfl
@[simp] theorem emit_pushed : (e.emit is).pushed = e.pushed := rfl
@[simp] theorem emit_warnings : (e.emit is).warnings = e.warnings := rfl
@[simp] theorem emit_labels : (e.emit is).labels = e.labels := rfl

@[simp] theorem take_text : (e.take r).text = e.text := rfl
@[simp] theorem take_data : (e.take r).data = e.data := rfl
@[simp] theorem take_pushed : (e.take r).pushed = e.pushed := rfl
@[simp] theorem take_warnings : (e.take r).warnings = e.warnings := rfl
@[simp] theorem take_labels : (e.take r).labels = e.labels := rfl

@[simp] theorem release_text : (e.release r).text = e.text := rfl
@[simp] theorem release_data : (e.release r).data = e.data := rfl
@[simp] theorem release_pushed : (e.release r).pushed = e.pushed := rfl
@[simp] theorem release_warnings : (e.release r).warnings = e.warnings := rfl
@[simp] theorem release_labels : (e.release r).labels = e.labels := rfl

@[simp] theorem withPushed_bank (n : Nat) : (e.withPushed n).bank = e.bank := rfl
@[simp] theorem withPushed_text (n : Nat) : (e.withPushed n).text = e.text := rfl
@[simp] theorem withPushed_data (n : Nat) : (e.withPushed n).data = e.data := rfl
@[simp] theorem withPushed_pushed (n : Nat) : (e.withPushed n).pushed = n := rfl
@[simp] theorem withPushed_warnings (n : Nat) : (e.withPushed n).warnings = e.warnings := rfl
@[simp] theorem withPushed_labels (n : Nat) : (e.withPushed n).labels = e.labels := rfl

@[simp] theorem append_nil : e.append [] = e := by simp [append]

@[simp] theorem append_append (ls' : List Line) :
    (e.append ls).append ls' = e.append (ls ++ ls') := by
  simp [append]

@[simp] theorem emit_nil : e.emit [] = e := by simp [emit]

/-- Instructions appended in two goes are appended in one. -/
@[simp] theorem emit_emit (is' : List Instr) : (e.emit is).emit is' = e.emit (is ++ is') := by
  simp [emit]

@[simp] theorem withPushed_self : e.withPushed e.pushed = e := rfl

@[simp] theorem withPushed_withPushed (n n' : Nat) :
    (e.withPushed n).withPushed n' = e.withPushed n' := rfl

@[simp] theorem emit_withPushed (n : Nat) : (e.withPushed n).emit is = (e.emit is).withPushed n :=
  rfl

@[simp] theorem takes_withPushed (n : Nat) (c : Cell) : (e.withPushed n).Takes c ↔ e.Takes c :=
  Iff.rfl

@[simp] theorem takes_append (c : Cell) : (e.append ls).Takes c ↔ e.Takes c := Iff.rfl

@[simp] theorem takes_emit (c : Cell) : (e.emit is).Takes c ↔ e.Takes c := Iff.rfl

@[simp] theorem takes_release (c : Cell) : (e.release r).Takes c ↔ c ≠ r.cell ∧ e.Takes c :=
  Emit.Bank.takes_mark_false r c

@[simp] theorem net_withPushed (n : Nat) : (e.withPushed n).net = e.net := rfl

@[simp] theorem net_append : (e.append ls).net = e.net := rfl

@[simp] theorem net_emit : (e.emit is).net = e.net := rfl

@[simp] theorem net_take : (e.take r).net = e.net + 1 := by
  simp only [net, take, Emit.Bank.net, Emit.Bank.mark]
  split <;> push_cast <;> omega

@[simp] theorem net_release : (e.release r).net = e.net - 1 := by
  simp only [net, release, Emit.Bank.net, Emit.Bank.mark]
  split <;> push_cast <;> omega

@[simp] theorem fresh?_withPushed (n : Nat) (view : Scalar) :
    (e.withPushed n).fresh? view = e.fresh? view := rfl

@[simp] theorem fresh?_append (view : Scalar) : (e.append ls).fresh? view = e.fresh? view := rfl

@[simp] theorem fresh?_emit (view : Scalar) : (e.emit is).fresh? view = e.fresh? view := rfl

variable {e r}

/-- A cell that is taken is a slot of the bank, of which there are four of each kind. -/
theorem slot_lt_of_takes (h : e.Takes r.cell) : r.slot < 4 := by
  have hs := e.bank.property.slot_lt h
  cases hv : r.view <;> simp [hv, Emit.RegisterFile.slots, Emit.registerFile, Scalar.isInteger] at hs
    <;> exact hs

/-- The next register is of the type asked for, is not taken, and is a slot of the bank. -/
theorem of_fresh? {view : Scalar} (h : e.fresh? view = some r) :
    r.view = view ∧ ¬ e.Takes r.cell ∧ r.slot < Emit.registerFile.slots r.view := by
  simp only [fresh?, Option.map_eq_some_iff] at h
  obtain ⟨slot, hslot, rfl⟩ := h
  obtain ⟨hlt, hfree, -⟩ := List.findIdx?_eq_some_iff_getElem.mp hslot
  refine ⟨rfl, ?_, ?_⟩
  · intro ht
    have hst := (e.bank.property.status_eq ⟨view, slot⟩).mpr ht
    rw [List.getElem?_eq_getElem hlt] at hst
    simp_all
  · rw [← e.bank.property.length_status]
    exact hlt

theorem takes_take {view : Scalar} (h : e.fresh? view = some r) (c : Cell) :
    (e.take r).Takes c ↔ c = r.cell ∨ e.Takes c :=
  Emit.Bank.takes_mark_true e.bank.property (of_fresh? h).2.2 c

end MiniC.Emitter
