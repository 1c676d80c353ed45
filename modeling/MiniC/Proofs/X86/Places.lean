import MiniC.Emit.Compute
import MiniC.Proofs.X86.Machine

/-!
# Places in memory

An instruction names a place in memory by a distance from the frame pointer, by a label of the data
section, or by registers. `Instr.places` lists them with the number of bytes that are read or written at
each. `Places` says where code may go: to which bytes of the frame, and to which labels. What registers
point to is not restricted by it.
-/

set_option autoImplicit false

namespace MiniC

namespace X86

/-! ### Places -/

/-- The place that an operand is, if it is one, and how many bytes of it are meant. -/
def Operand.places (bytes : Nat) : Operand → List (Mem × Nat)
  | .mem place => [(place, bytes)]
  | .reg _ => []
  | .imm _ => []

@[simp] theorem Operand.places_mem (bytes : Nat) (place : Mem) :
    (Operand.mem place).places bytes = [(place, bytes)] := rfl

@[simp] theorem Operand.places_reg (bytes : Nat) (r : Register) : (Operand.reg r).places bytes = [] := rfl

@[simp] theorem Operand.places_imm (bytes : Nat) (v : Int64) : (Operand.imm v).places bytes = [] := rfl

/-- The places that an instruction names, with the number of bytes that it reads or writes there. Loading an
address does neither. -/
def Instr.places : Instr → List (Mem × Nat)
  | .mov w src dst => src.places w.bytes ++ dst.places w.bytes
  | .movAbs _ dst => dst.places 8
  | .movZero narrow wide src dst => src.places narrow.bytes ++ dst.places wide.bytes
  | .movSign narrow wide src dst => src.places narrow.bytes ++ dst.places wide.bytes
  | .lea src dst => src.places 0 ++ dst.places 8
  | .alu _ w src dst => src.places w.bytes ++ dst.places w.bytes
  | .shl w count dst => count.places 1 ++ dst.places w.bytes
  | .sar w count dst => count.places 1 ++ dst.places w.bytes
  | .neg w dst => dst.places w.bytes
  | .not w dst => dst.places w.bytes
  | .inc w dst => dst.places w.bytes
  | .dec w dst => dst.places w.bytes
  | .idiv w divisor => divisor.places w.bytes
  | .set _ dst => dst.places 1
  | .sse _ src dst => src.places 8 ++ dst.places 8
  | .cvtsi2sd w src dst => src.places w.bytes ++ dst.places 8
  | .cvttsd2si w src dst => src.places 8 ++ dst.places w.bytes
  | .push src => src.places 8
  | .pop dst => dst.places 8
  | .cqo | .jmp _ | .jcc _ _ | .call _ | .leave | .ret => []

/-- Where code may go: a number of bytes at a distance from the frame pointer, and labels of the data
section. -/
structure Places where
  frame : Int → Nat → Prop
  data : String → Prop

/-- Whether some bytes at a place are among those where code may go. What is left to the assembler is
not. -/
def Places.Has (R : Places) : Mem → Nat → Prop
  | .frame offset, bytes => R.frame offset bytes
  | .data label _, _ => R.data label
  | .indirect _, _ => True
  | .indexed _ _ _, _ => True
  | .expression _, _ => False

/-- A line that names no other places, nor labels of data as constants. -/
def Line.Confined (R : Places) : Line → Prop
  | .instr i => ∀ p ∈ i.places, R.Has p.1 p.2
  | .directive (.address name) => R.data name
  | .directive (.verbatim _) => False
  | _ => True

/-- An object may be accessed: any of its bytes, and its address taken. -/
def Places.Admits (R : Places) (o : Symbol) : Prop :=
  ∀ offset bytes : Nat, offset + bytes ≤ o.type.size → (bytes = 0 → offset = 0) →
    R.Has (.within o.address offset) bytes

/-- The constants of a pool may be accessed. -/
structure Places.Pooled (R : Places) (pool : Pool) : Prop where
  floats : ∀ x label, pool.floatLabel? x = some label → R.data label
  strings : ∀ text label, pool.stringLabel? text = some label → R.data label

/-- No restriction on the objects and constants that code may access. -/
def Places.anywhere : Places := ⟨fun _ _ => True, fun _ => True⟩

theorem admits_anywhere (o : Symbol) : Places.anywhere.Admits o := by
  intro offset bytes _ _
  cases o.address <;> trivial

theorem pooled_anywhere (pool : Pool) : Places.anywhere.Pooled pool := ⟨fun _ _ _ => trivial, fun _ _ _ => trivial⟩

end X86

end MiniC
