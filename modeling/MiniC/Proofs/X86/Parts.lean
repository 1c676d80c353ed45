import MiniC.Proofs.X86.Cpu
import MiniC.Proofs.X86.Words

/-!
# What instructions write

The parts of the machine apart from its memory, and which of them an instruction writes. A register and its low
byte are two parts, because an instruction may write the byte alone. Of a function that is called nothing is
known but the calling convention, so a call writes every register that the convention does not keep.
-/

set_option autoImplicit false

namespace MiniC.X86

/-- A part of the machine that instructions look at or change, the memory apart. -/
inductive Part where
  | gpr (g : Gpr)
  /-- The low byte of a register. -/
  | low (g : Gpr)
  | xmm (i : Fin 16)
  | flags
deriving DecidableEq, Repr

namespace Operand

/-- What is written when an integer operand is. -/
def writes : Operand → List Part
  | reg (.gpr g .byte) => [.low g]
  | reg (.gpr g _) => [.gpr g]
  | _ => []

/-- What is written when a floating-point operand is. -/
def floatWrites : Operand → List Part
  | reg (.xmm i) => [.xmm i]
  | _ => []

section Forms

variable (g : Gpr) (i : Fin 16) (v : Int64) (place : Mem)

@[simp] theorem writes_quad : (quad g).writes = [.gpr g] := rfl
@[simp] theorem writes_byte : (reg (.byte g)).writes = [.low g] := rfl
@[simp] theorem writes_mem : (mem place).writes = [] := rfl
@[simp] theorem floatWrites_xmm : (reg (.xmm i)).floatWrites = [.xmm i] := rfl
@[simp] theorem floatWrites_mem : (mem place).floatWrites = [] := rfl

end Forms

end Operand

/-- The registers that a function may have changed when it returns. -/
def changedGprs : List Gpr := Gpr.all.filter (· ∉ keptGprs)

namespace Instr

/-- What an instruction writes, the memory apart. -/
def writes : Instr → List Part
  | mov _ _ dst | movZero _ _ _ dst | movSign _ _ _ dst | movAbs _ dst | lea _ dst => dst.writes
  | alu _ _ _ dst | shl _ _ dst | sar _ _ dst | neg _ dst | inc _ dst | dec _ dst => .flags :: dst.writes
  | not _ dst | set _ dst => dst.writes
  | idiv _ _ => [.gpr .rax, .gpr .rdx, .flags]
  | cqo => [.gpr .rdx]
  | sse .ucomisd _ _ => [.flags]
  | sse _ _ dst | cvtsi2sd _ _ dst => dst.floatWrites
  | cvttsd2si _ _ dst => dst.writes
  | push _ => [.gpr .rsp]
  | pop dst => .gpr .rsp :: dst.writes
  | call _ => .flags :: changedGprs.map .gpr ++ (List.finRange 16).map .xmm
  | jmp _ | jcc _ _ | leave | ret => []

end Instr

/-- Whether the next line follows an instruction if it can be carried out. -/
def Instr.isPlain (i : Instr) : Bool := (Line.instr i).jump?.isNone

theorem effect_of_isPlain {env : Env} {i : Instr} (h : i.isPlain = true) (c : Cpu) :
    (Line.instr i).effect env c = (c.run env i).map fun c' => (none, c') := by
  cases i <;> first | rfl | cases h

end MiniC.X86
