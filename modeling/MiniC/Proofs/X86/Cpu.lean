import MiniC.Proofs.X86.Blocks
import MiniC.Proofs.X86.Stack

/-!
# The whole machine

The integer machine with the floating-point registers and with calls. A float is a word that only the
instructions for floats look into, and what these compute is left open: `Env` gives it, with what the
functions do that are called. Of a comparison of floats it gives one of four orders. A function that is
called may depend on the memory, the stack pointer and the registers of arguments, and leaves alone what the
calling convention says.

A stretch of code is left at its end or by a jump to a label that it does not define. `ExitsFrom` says how,
following the jumps inside.
-/

set_option autoImplicit false

namespace MiniC.X86

open Emit (argumentGprs argumentXmms unorderedLabel unorderedTarget)

/-! ### Orders -/

/-- How a float compares with another. -/
inductive Order where
  | less
  | equal
  | greater
  /-- One of the two is no number. -/
  | unordered
deriving DecidableEq, Repr

namespace Order

/-- How the other float compares with the one. -/
def swap : Order → Order
  | less => greater
  | greater => less
  | equal => equal
  | unordered => unordered

/-- The flags that report an order are those of unsigned integers, and no order sets them all. -/
def flags (o : Order) : Flags where
  zero := o = equal ∨ o = unordered
  sign := false
  carry := o = less ∨ o = unordered
  overflow := false

/-- Whether a condition holds after a comparison. The parity flag is set if there is no order. -/
def holds (o : Order) : Cond → Option Bool
  | .p => some (o = unordered)
  | .np => some (o ≠ unordered)
  | c => o.flags.holds c

end Order

/-! ### States -/

/-- A state of the machine: the integer part, the floating-point registers, and the order that the last
comparison of floats found, as long as the flags are its flags. -/
structure Cpu extends Machine where
  xmms : Fin 16 → BitVec 64
  order : Option Order

/-- What a function that is called can see: its name, the memory, and the registers that are passed. -/
structure Call where
  name : String
  mem : Memory
  gprs : Gpr → BitVec 64
  xmms : Fin 16 → BitVec 64

/-- What a function leaves behind when it returns. -/
structure Return where
  mem : Memory
  gprs : Gpr → BitVec 64
  xmms : Fin 16 → BitVec 64

/-- What the machine does not know itself: where data lies, how floats are computed and compared, and what
functions do. -/
structure Env where
  layout : Layout
  arith : Sse → BitVec 64 → BitVec 64 → BitVec 64
  /-- How a float compares with another. -/
  order : BitVec 64 → BitVec 64 → Order
  order_swap : ∀ a b, order b a = (order a b).swap
  ofInteger : BitVec 64 → BitVec 64
  toInteger : BitVec 64 → BitVec 64
  /-- What a call leads to, if it returns. -/
  call : Call → Option Return

/-- The registers that a function has to leave as they were. -/
def keptGprs : List Gpr := [.rbx, .rbp, .rsp, .r12, .r13, .r14, .r15]

/-- The registers that a function may look at. -/
def passedGprs : List Gpr := .rsp :: argumentGprs

/-- Whether the flags are as before after an instruction of the integer machine. -/
def Instr.keepsFlags : Instr → Bool
  | .mov _ _ _ | .movAbs _ _ | .movZero _ _ _ _ | .movSign _ _ _ _ | .lea _ _ => true
  | .not _ _ | .cqo | .push _ | .pop _ => true
  | _ => false

namespace Cpu

variable (env : Env) (c : Cpu)

/-- The machine with another integer part. -/
def withMachine (m : Machine) : Cpu := { c with toMachine := m }

/-- The machine with another word in a floating-point register. -/
def setFloat (i : Fin 16) (v : BitVec 64) : Cpu := { c with xmms := Function.update c.xmms i v }

/-- The machine with another order for the flags to report. -/
def withOrder (o : Option Order) : Cpu := { c with order := o }

/-- The machine after a comparison of floats. -/
def compared (o : Order) : Cpu := (c.withMachine (c.toMachine.withFlags none)).withOrder (some o)

section Fields

variable (m : Machine) (i : Fin 16) (v : BitVec 64) (o : Option Order)

@[simp] theorem withMachine_toMachine : (c.withMachine m).toMachine = m := rfl
@[simp] theorem withMachine_xmms : (c.withMachine m).xmms = c.xmms := rfl
@[simp] theorem withMachine_order : (c.withMachine m).order = c.order := rfl
@[simp] theorem setFloat_toMachine : (c.setFloat i v).toMachine = c.toMachine := rfl
@[simp] theorem setFloat_xmms : (c.setFloat i v).xmms = Function.update c.xmms i v := rfl
@[simp] theorem setFloat_order : (c.setFloat i v).order = c.order := rfl
@[simp] theorem withOrder_toMachine : (c.withOrder o).toMachine = c.toMachine := rfl
@[simp] theorem withOrder_xmms : (c.withOrder o).xmms = c.xmms := rfl
@[simp] theorem withOrder_order : (c.withOrder o).order = o := rfl

end Fields

/-- Whether a condition holds, of floats if they were compared last. -/
def holds (cond : Cond) : Option Bool :=
  match c.order with
  | some o => o.holds cond
  | none => c.flags.bind (·.holds cond)

/-- The word of an operand of a floating-point instruction. -/
def float : Operand → Option (BitVec 64)
  | .reg (.xmm i) => some (c.xmms i)
  | .mem place => (c.address env.layout place).map fun a => BitVec.ofNat 64 (c.mem.read a 8)
  | _ => none

/-- Put a word into an operand of a floating-point instruction. -/
def assignFloat (v : BitVec 64) : Operand → Option Cpu
  | .reg (.xmm i) => some (c.setFloat i v)
  | .mem place => (c.address env.layout place).map fun a =>
      c.withMachine (c.toMachine.withMem (c.mem.write a 8 v.toNat))
  | _ => none

/-- What a function sees that is called now. -/
def calling (name : String) : Call where
  name := name
  mem := c.mem
  gprs g := if g ∈ passedGprs then c.regs g else 0
  xmms i := if i ∈ argumentXmms then c.xmms i else 0

/-- The machine after a function has returned. -/
def returned (r : Return) : Cpu where
  regs g := if g ∈ keptGprs then c.regs g else r.gprs g
  flags := none
  mem := r.mem
  xmms := r.xmms
  order := none

/-- What an instruction does that does not jump. -/
def run : Instr → Option Cpu
  | .sse .movsd src dst => (c.float env src).bind fun v => c.assignFloat env v dst
  | .sse .ucomisd src dst =>
    (c.float env src).bind fun b => (c.float env dst).map fun a => c.compared (env.order a b)
  | .sse .xorpd src (.reg (.xmm i)) => (c.float env src).map fun v => c.setFloat i (c.xmms i ^^^ v)
  | .sse op src (.reg (.xmm i)) => (c.float env src).map fun v => c.setFloat i (env.arith op (c.xmms i) v)
  | .sse _ _ _ => none
  | .cvtsi2sd .quad src (.reg (.xmm i)) =>
    (c.value env.layout .quad src).map fun v => c.setFloat i (env.ofInteger v)
  | .cvttsd2si .quad src dst =>
    (c.float env src).bind fun v => (c.assign env.layout .quad (env.toInteger v) dst).map c.withMachine
  | .set cond dst =>
    (c.holds cond).bind fun b =>
      (c.assign env.layout .byte (if b then 1 else 0) dst).map c.withMachine
  | .call name => (env.call (c.calling name)).map c.returned
  | i => (i.run env.layout c.toMachine).map fun m =>
      (c.withMachine m).withOrder (if i.keepsFlags then c.order else none)

/-- Instructions one after the other. -/
def runs : List Instr → Cpu → Option Cpu
  | [], c => some c
  | i :: is, c => (c.run env i).bind (runs is)

end Cpu

/-! ### Lines -/

/-- What a line does: where it jumps to, if it does, and the machine after it. -/
def Line.effect (env : Env) : Line → Cpu → Option (Option String × Cpu)
  | .instr (.jmp target), c => some (some target, c)
  | .instr (.jcc cond target), c => (c.holds cond).map fun b => (if b then some target else none, c)
  | .instr i, c => (c.run env i).map fun c' => (none, c')
  | _, c => some (none, c)

/-- From a line on, code is left in a way: past its last line, or by a jump to what it does not define. -/
inductive ExitsFrom (env : Env) (code : List Line) : Nat → Cpu → Exit → Cpu → Prop
  | done {i : Nat} {c : Cpu} (hi : code.length ≤ i) : ExitsFrom env code i c .next c
  | next {i : Nat} {l : Line} {c c1 c' : Cpu} {x : Exit} (hl : code[i]? = some l)
    (heffect : l.effect env c = some (none, c1)) (hrest : ExitsFrom env code (i + 1) c1 x c') :
    ExitsFrom env code i c x c'
  | jump {i j : Nat} {l : Line} {c c1 c' : Cpu} {x : Exit} {target : String} (hl : code[i]? = some l)
    (heffect : l.effect env c = some (some target, c1)) (hlands : Lands code i target j)
    (hrest : ExitsFrom env code j c1 x c') : ExitsFrom env code i c x c'
  | out {i : Nat} {l : Line} {c c' : Cpu} {target : String} (hl : code[i]? = some l)
    (heffect : l.effect env c = some (some target, c')) (hout : ∀ j, ¬ Lands code i target j) :
    ExitsFrom env code i c (.jump target) c'

/-- Code that is run from its first line is left in a way. -/
abbrev Exits (env : Env) (code : List Line) : Cpu → Exit → Cpu → Prop := ExitsFrom env code 0

theorem jump?_of_effect {env : Env} {l : Line} {c c' : Cpu} {target : String}
    (h : l.effect env c = some (some target, c')) : l.jump? = some target := by
  unfold Line.effect at h
  split at h
  · cases h
    rfl
  · obtain ⟨b, -, hb⟩ := Option.map_eq_some_iff.mp h
    cases b <;> cases hb
    rfl
  · obtain ⟨c1, -, hc1⟩ := Option.map_eq_some_iff.mp h
    cases hc1
  · cases h

end MiniC.X86
