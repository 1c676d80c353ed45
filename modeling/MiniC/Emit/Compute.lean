import MiniC.Emit.Compare

/-!
# Computing values

Arithmetic on two operands of one type, operations on one operand, and conversions. Integers are
computed in all 64 bits and then extended again from the width of their type.
-/

set_option autoImplicit false

namespace MiniC.Emit

open MiniC.X86 (Gpr Register Operand Instr Alu Sse)

/-- The instruction of a float operation. -/
def floatOp? : ArithOp → Option Sse
  | .add => some .addsd
  | .sub => some .subsd
  | .mul => some .mulsd
  | .div => some .divsd
  | _ => none

/-- The instructions that combine `dst` with `src`. A quotient and a remainder are left in `rax` and
`rdx`, and a shift takes its count from the low byte of `rcx`; none of these holds a value. -/
def integerOp (op : ArithOp) (src dst : Operand) : List Instr :=
  match op with
  | .add => [.alu .add .quad src dst]
  | .sub => [.alu .sub .quad src dst]
  | .mul => [.alu .imul .quad src dst]
  | .bitAnd => [.alu .and .quad src dst]
  | .bitOr => [.alu .or .quad src dst]
  | .bitXor => [.alu .xor .quad src dst]
  | .div => [.mov .quad dst (.quad .rax), .cqo, .idiv .quad src, .mov .quad (.quad .rax) dst]
  | .mod => [.mov .quad dst (.quad .rax), .cqo, .idiv .quad src, .mov .quad (.quad .rdx) dst]
  | .shl => [.mov .quad src (.quad .rcx), .shl .quad (.reg (.byte .rcx)) dst]
  | .shr => [.mov .quad src (.quad .rcx), .sar .quad (.reg (.byte .rcx)) dst]

/-- Combine two values into the left register, and give the right one back. -/
def binary (op : ArithOp) (left right : Reg) : Emit Reg := do
  sameView op.name left right
  if left.view = .float then
    match floatOp? op with
    | none => throw (.unsupported (.floatOperands op))
    | some sse =>
      let src ← operand right
      let dst ← operand left
      instr (.sse sse src dst)
      free right
      return left
  else
    let dst ← quad left
    let src ← quad right
    instrs (integerOp op src dst)
    normalize left
    free right
    return left

/-- Negate a value. A float is subtracted from zero, in another register. -/
def negate (r : Reg) : Emit Reg := do
  if r.view = .float then
    let zero ← floatZero
    let src ← operand r
    let dst ← operand zero
    instr (.sse .subsd src dst)
    free r
    return zero
  else
    instr (.neg .quad (← quad r))
    normalize r
    return r

/-- Complement the bits of an integer. -/
def invert (r : Reg) : Emit Reg := do
  if r.view = .float then throw (.unsupportedType "invert" .float)
  else
    instr (.not .quad (← quad r))
    normalize r
    return r

/-- Whether a value is zero, as a `long` that is zero or one. -/
def logicalNot (r : Reg) : Emit Reg := do
  if r.view = .float then
    testFloat r
    let result ← allocate .long
    setFloatInto result .eq
    return result
  else
    let q ← quad r
    instr (.alu .cmp .quad (.imm 0) q)
    setInto r .e
    ofExcept (r.as .long)

/-- Compute a value from one operand. -/
def unary (op : ValueOp) (r : Reg) : Emit Reg := do
  check r
  match op with
  | .negate => negate r
  | .invert => invert r
  | .not => logicalNot r

/-- Convert a value. Between integer types the register stays the same: narrowing extends it again
from the narrower width, and for widening it is extended already. -/
def convert (r : Reg) (source target : Scalar) : Emit Reg := do
  expectView "convert" r source
  if source = target then return r
  else if source = .float then
    let result ← allocate target
    let src ← operand r
    let dst ← quad result
    instr (.cvttsd2si .quad src dst)
    normalize result
    free r
    return result
  else if target = .float then
    let result ← allocate .float
    let src ← quad r
    let dst ← operand result
    instr (.cvtsi2sd .quad src dst)
    free r
    return result
  else
    let result ← ofExcept (r.as target)
    if target.size < source.size then normalize result
    return result

end MiniC.Emit
