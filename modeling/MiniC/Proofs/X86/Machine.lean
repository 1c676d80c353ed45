import MiniC.X86.Instr
import Mathlib

/-!
# The integer machine

What the instructions of the integer part of the machine do: to the sixteen general registers, to the
flags and to a memory of bytes. An instruction that cannot be carried out has no outcome: a division
that faults, a jump on flags that the instructions before left undefined, and everything that belongs
to floating-point registers or to calls.

`step` is one line of a program, `Reaches` any number of them. `runAll` runs instructions that do not
jump, one after the other.
-/

set_option autoImplicit false

namespace MiniC.X86

/-! ### Memory -/

/-- A memory of bytes. -/
abbrev Memory := BitVec 64 → BitVec 8

namespace Memory

/-- The number that some bytes from an address on hold, the low byte first. -/
def read (mem : Memory) (a : BitVec 64) : Nat → Nat
  | 0 => 0
  | n + 1 => (mem a).toNat + 256 * read mem (a + 1) n

/-- Put the low bytes of a number at an address, the low byte first. -/
def write (mem : Memory) (a : BitVec 64) (count v : Nat) : Memory := fun b =>
  if (b - a).toNat < count then BitVec.ofNat 8 (v / 256 ^ (b - a).toNat) else mem b

end Memory

/-! ### Words -/

namespace Width

/-- How many bytes an operand has. -/
def bytes : Width → Nat
  | byte => 1
  | long => 4
  | quad => 8

/-- The low part of a word, with zeros above it. -/
def zext : Width → BitVec 64 → BitVec 64
  | byte, x => (x.setWidth 8).setWidth 64
  | long, x => (x.setWidth 32).setWidth 64
  | quad, x => x

/-- The low part of a word, with its sign above it. -/
def sext : Width → BitVec 64 → BitVec 64
  | byte, x => (x.setWidth 8).signExtend 64
  | long, x => (x.setWidth 32).signExtend 64
  | quad, x => x

/-- A register after its low part has been replaced: four bytes clear what is above them, one byte
leaves it. -/
def replace : Width → BitVec 64 → BitVec 64 → BitVec 64
  | byte, old, v => old.extractLsb' 8 56 ++ v.setWidth 8
  | long, _, v => long.zext v
  | quad, _, v => v

/-- How far a shift may go: its count is taken modulo this. -/
def shiftRange : Width → Nat
  | quad => 64
  | _ => 32

end Width

/-! ### Flags -/

/-- What an instruction reports of its result. -/
structure Flags where
  zero : Bool
  sign : Bool
  carry : Bool
  overflow : Bool
deriving DecidableEq, Repr

namespace Flags

/-- The flags of a difference. -/
def ofSub (w : Width) (a b : BitVec 64) : Flags where
  zero := w.zext (a - b) == 0
  sign := decide ((w.sext (a - b)).toInt < 0)
  carry := decide ((w.zext a).toNat < (w.zext b).toNat)
  overflow := decide ((w.sext a).toInt - (w.sext b).toInt ≠ (w.sext (a - b)).toInt)

/-- The flags of a sum. -/
def ofAdd (w : Width) (a b : BitVec 64) : Flags where
  zero := w.zext (a + b) == 0
  sign := decide ((w.sext (a + b)).toInt < 0)
  carry := decide ((w.zext (a + b)).toNat < (w.zext a).toNat)
  overflow := decide ((w.sext a).toInt + (w.sext b).toInt ≠ (w.sext (a + b)).toInt)

/-- The flags of a result that is computed bit by bit. -/
def ofBits (w : Width) (x : BitVec 64) : Flags where
  zero := w.zext x == 0
  sign := decide ((w.sext x).toInt < 0)
  carry := false
  overflow := false

/-- Whether a condition holds. The parity flag belongs to floating-point comparisons. -/
def holds (f : Flags) : Cond → Option Bool
  | .e => some f.zero
  | .ne => some !f.zero
  | .l => some (f.sign != f.overflow)
  | .ge => some (f.sign == f.overflow)
  | .le => some (f.zero || f.sign != f.overflow)
  | .g => some (!f.zero && f.sign == f.overflow)
  | .b => some f.carry
  | .ae => some !f.carry
  | .be => some (f.carry || f.zero)
  | .a => some (!f.carry && !f.zero)
  | .p => none
  | .np => none

end Flags

/-! ### States -/

/-- A state of the machine. -/
structure Machine where
  regs : Gpr → BitVec 64
  /-- The flags, unless the last instruction left them undefined. -/
  flags : Option Flags
  mem : Memory

/-- Where the labels of the data section lie. -/
abbrev Layout := String → BitVec 64

namespace Machine

/-- The machine with another word in a register. -/
def set (m : Machine) (g : Gpr) (v : BitVec 64) : Machine :=
  { m with regs := Function.update m.regs g v }

/-- The machine with other flags. -/
def withFlags (m : Machine) (f : Option Flags) : Machine := { m with flags := f }

/-- The machine with another memory. -/
def withMem (m : Machine) (mem : Memory) : Machine := { m with mem := mem }

variable (m : Machine) (g g' : Gpr) (v : BitVec 64) (f : Option Flags) (mem : Memory)

@[simp] theorem set_regs : (m.set g v).regs = Function.update m.regs g v := rfl
@[simp] theorem set_mem : (m.set g v).mem = m.mem := rfl
@[simp] theorem set_flags : (m.set g v).flags = m.flags := rfl
@[simp] theorem withFlags_regs : (m.withFlags f).regs = m.regs := rfl
@[simp] theorem withFlags_mem : (m.withFlags f).mem = m.mem := rfl
@[simp] theorem withFlags_flags : (m.withFlags f).flags = f := rfl
@[simp] theorem withMem_regs : (m.withMem mem).regs = m.regs := rfl
@[simp] theorem withMem_mem : (m.withMem mem).mem = mem := rfl
@[simp] theorem withMem_flags : (m.withMem mem).flags = m.flags := rfl

/-- The address that a place in memory stands for. -/
def address (D : Layout) (m : Machine) : Mem → Option (BitVec 64)
  | .frame offset => some (m.regs .rbp + BitVec.ofInt 64 offset)
  | .data label offset => some (D label + BitVec.ofInt 64 offset)
  | .indirect base => some (m.regs base)
  | .indexed base index scale => some (m.regs base + m.regs index * BitVec.ofNat 64 scale)
  | .expression _ => none

/-- The value of an operand, with zeros above its low part. -/
def value (D : Layout) (m : Machine) (w : Width) : Operand → Option (BitVec 64)
  | .reg (.gpr g w') => if w' = w then some (w.zext (m.regs g)) else none
  | .reg (.xmm _) => none
  | .imm v => some (w.zext v.toBitVec)
  | .mem place => (m.address D place).map fun a => BitVec.ofNat 64 (m.mem.read a w.bytes)

/-- Put the low part of a word into an operand. -/
def assign (D : Layout) (m : Machine) (w : Width) (v : BitVec 64) : Operand → Option Machine
  | .reg (.gpr g w') => if w' = w then some (m.set g (w.replace (m.regs g) v)) else none
  | .mem place => (m.address D place).map fun a => m.withMem (m.mem.write a w.bytes v.toNat)
  | .reg (.xmm _) => none
  | .imm _ => none

@[simp] theorem value_quad (D : Layout) : m.value D .quad (.quad g) = some (m.regs g) := rfl

@[simp] theorem assign_quad (D : Layout) : m.assign D .quad v (.quad g) = some (m.set g v) := rfl

/-- The result of an operation on two operands, if it is kept, and the flags it leaves. -/
def alu (op : Alu) (w : Width) (src dst : BitVec 64) : Option (BitVec 64) × Option Flags :=
  match op with
  | .add => (some (dst + src), some (.ofAdd w dst src))
  | .sub => (some (dst - src), some (.ofSub w dst src))
  | .imul => (some (dst * src), none)
  | .and => (some (dst &&& src), some (.ofBits w (dst &&& src)))
  | .or => (some (dst ||| src), some (.ofBits w (dst ||| src)))
  | .xor => (some (dst ^^^ src), some (.ofBits w (dst ^^^ src)))
  | .cmp => (none, some (.ofSub w dst src))
  | .test => (none, some (.ofBits w (dst &&& src)))

/-- Replace an operand by a function of itself, which leaves no flags to rely on. -/
def modify (D : Layout) (m : Machine) (w : Width) (f : BitVec 64 → BitVec 64) (dst : Operand) :
    Option Machine := do
  let x ← m.value D w dst
  (m.withFlags none).assign D w (f x) dst

/-- Divide the number in `rdx` and `rax`. A quotient that does not fit is a fault, like a divisor
that is zero. -/
def divide (m : Machine) (divisor : BitVec 64) : Option Machine :=
  let n := (m.regs .rdx).toInt * 2 ^ 64 + (m.regs .rax).toNat
  let d := divisor.toInt
  if d = 0 ∨ n.tdiv d < -2 ^ 63 ∨ 2 ^ 63 ≤ n.tdiv d then none
  else
    some (((m.withFlags none).set .rax (BitVec.ofInt 64 (n.tdiv d))).set .rdx
      (BitVec.ofInt 64 (n.tmod d)))

end Machine

/-! ### Instructions -/

/-- What an instruction that does not jump does. -/
def Instr.run (D : Layout) (i : Instr) (m : Machine) : Option Machine :=
  match i with
  | .mov w src dst => do m.assign D w (← m.value D w src) dst
  | .movAbs v dst => m.assign D .quad v.toBitVec dst
  | .movZero narrow wide src dst => do m.assign D wide (← m.value D narrow src) dst
  | .movSign narrow wide src dst => do m.assign D wide (narrow.sext (← m.value D narrow src)) dst
  | .lea (.mem place) dst => do m.assign D .quad (← m.address D place) dst
  | .alu op w src dst => do
    let b ← m.value D w src
    let a ← m.value D w dst
    match Machine.alu op w b a with
    | (some result, flags) => (m.withFlags flags).assign D w result dst
    | (none, flags) => some (m.withFlags flags)
  | .shl w count dst => do
    let c ← m.value D .byte count
    m.modify D w (fun x => x <<< (c.toNat % w.shiftRange)) dst
  | .sar w count dst => do
    let c ← m.value D .byte count
    m.modify D w (fun x => (w.sext x).sshiftRight (c.toNat % w.shiftRange)) dst
  | .neg w dst => m.modify D w (fun x => -x) dst
  | .not w dst => do m.assign D w (~~~(← m.value D w dst)) dst
  | .inc w dst => m.modify D w (fun x => x + 1) dst
  | .dec w dst => m.modify D w (fun x => x - 1) dst
  | .idiv .quad divisor => do m.divide (← m.value D .quad divisor)
  | .cqo => some (m.set .rdx (if (m.regs .rax).toInt < 0 then -1 else 0))
  | .set c dst => do
    let b ← (← m.flags).holds c
    m.assign D .byte (if b then 1 else 0) dst
  | .push src => do
    let v ← m.value D .quad src
    let m := m.set .rsp (m.regs .rsp - 8)
    m.assign D .quad v .top
  | .pop dst => do
    let v ← m.value D .quad .top
    (m.set .rsp (m.regs .rsp + 8)).assign D .quad v dst
  | _ => none

/-- Instructions one after the other. -/
def runAll (D : Layout) : List Instr → Machine → Option Machine
  | [], m => some m
  | i :: is, m => (i.run D m).bind (runAll D is)

@[simp] theorem runAll_nil (D : Layout) (m : Machine) : runAll D [] m = some m := rfl

theorem runAll_cons {D : Layout} {i : Instr} {is : List Instr} {m m' : Machine}
    (h : i.run D m = some m') : runAll D (i :: is) m = runAll D is m' := by
  rw [runAll, h]
  rfl

theorem runAll_single {D : Layout} {i : Instr} {m m' : Machine} (h : i.run D m = some m') :
    runAll D [i] m = some m' := runAll_cons h

theorem runAll_append {D : Layout} {is is' : List Instr} {m m' : Machine}
    (h : runAll D is m = some m') : runAll D (is ++ is') m = runAll D is' m' := by
  induction is generalizing m with
  | nil =>
    cases h
    rfl
  | cons i is ih =>
    obtain ⟨m1, hi, his⟩ := Option.bind_eq_some_iff.mp h
    rw [List.cons_append, runAll_cons hi]
    exact ih his

/-! ### Programs -/

/-- Whether a line is a label. -/
def Line.defines (name : String) : Line → Bool
  | .label n => n == name
  | _ => false

/-- Where a jump to a label lands. -/
def landing (prog : List Line) (name : String) : Option Nat := prog.findIdx? (Line.defines name)

/-- One line of a program. -/
def step (D : Layout) (prog : List Line) (at_ : Nat × Machine) : Option (Nat × Machine) :=
  let (pc, m) := at_
  match prog[pc]? with
  | none => none
  | some (.instr (.jmp target)) => (landing prog target).map fun i => (i, m)
  | some (.instr (.jcc c target)) => do
    if ← (← m.flags).holds c then (landing prog target).map fun i => (i, m)
    else return (pc + 1, m)
  | some (.instr i) => (i.run D m).map fun m' => (pc + 1, m')
  | some _ => some (pc + 1, m)

/-- Any number of lines of a program. -/
abbrev Reaches (D : Layout) (prog : List Line) : Nat × Machine → Nat × Machine → Prop :=
  Relation.ReflTransGen fun a b => step D prog a = some b

end MiniC.X86
