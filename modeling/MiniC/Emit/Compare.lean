import MiniC.Emit.Basic

/-!
# Comparing values

A comparison sets the flags, and its outcome is either put into a register as zero or one or
decides a jump. Floats report through the flags of unsigned integers, and a comparison with a NaN
sets the flags for equal, below and parity together. The relations "above" and "above or equal"
are false of it as they should be, so "less" is asked with the operands exchanged, and equality
asks for the parity flag as well.
-/

set_option autoImplicit false

namespace MiniC.Emit

open MiniC.X86 (Gpr Register Operand Instr Cond)

/-- The condition for a relation of the destination to the source of an integer comparison. -/
def condition : Relation → Cond
  | .eq => .e
  | .ne => .ne
  | .lt => .l
  | .le => .le
  | .gt => .g
  | .ge => .ge

/-- The condition for a relation of the destination to the source of a float comparison. -/
def floatCondition : Relation → Cond
  | .eq => .e
  | .ne => .ne
  | .lt => .b
  | .le => .be
  | .gt => .a
  | .ge => .ae

/-- The register that holds the parity flag until it is combined with another. -/
def parityByte : Operand := .reg (.byte .rax)

/-- The label that a comparison with a NaN jumps to, and how a jump forward to it is written. -/
def unorderedLabel : String := "1"

/-- How a jump forward to the nearest `unorderedLabel` names it. -/
def unorderedTarget : String := "1f"

/-- Compare two integers. -/
def compareIntegers (left right : Reg) : Emit Unit := do
  let src ← quad right
  let dst ← quad left
  instr (.alu .cmp .quad src dst)

/-- Compare two floats and give the relation to ask about: "less" becomes "greater" of the
exchanged operands. -/
def compareFloats (relation : Relation) (left right : Reg) : Emit Relation := do
  let (relation, left, right) :=
    match relation with
    | .lt => (Relation.gt, right, left)
    | .le => (.ge, right, left)
    | other => (other, left, right)
  let src ← operand right
  let dst ← operand left
  instr (.sse .ucomisd src dst)
  return relation

/-- Put the outcome of an integer comparison into a register that is taken. -/
def setInto (r : Reg) (c : Cond) : Emit Unit := do
  instr (.set c (← byte r))
  instr (.movZero .byte .quad (← byte r) (← quad r))

/-- Put the outcome of a float comparison into a register that is taken. -/
def setFloatInto (r : Reg) (relation : Relation) : Emit Unit := do
  let low ← byte r
  instr (.set (floatCondition relation) low)
  match relation with
  | .eq =>
    instr (.set .np parityByte)
    instr (.alu .and .byte parityByte low)
  | .ne =>
    instr (.set .p parityByte)
    instr (.alu .or .byte parityByte low)
  | _ => pure ()
  instr (.movZero .byte .quad low (← quad r))

/-- Jump if a float comparison came out as a relation. -/
def floatJump (relation : Relation) (target : String) : Emit Unit :=
  match relation with
  | .eq => do
    instr (.jcc .p unorderedTarget)
    instr (.jcc .e target)
    label unorderedLabel
  | .ne => do
    instr (.jcc .ne target)
    instr (.jcc .p target)
  | other => instr (.jcc (floatCondition other) target)

/-- Whether two values compare as a relation, as a `long` that is zero or one. Both registers are
given back; the outcome of comparing `long`s is in the right one. -/
def compare (relation : Relation) (left right : Reg) : Emit Reg := do
  sameView "compare" left right
  if left.view = .float then
    let relation ← compareFloats relation left right
    free left
    free right
    let result ← allocate .long
    setFloatInto result relation
    return result
  else
    compareIntegers left right
    if left.view = .long then
      setInto right (condition relation)
      free left
      return right
    else
      let result ← allocate .long
      setInto result (condition relation)
      free left
      free right
      return result

/-- Jump if two values compare as a relation. Both registers are given back. -/
def compareAndJump (relation : Relation) (left right : Reg) (target : String) : Emit Unit := do
  sameView "compare-and-jump" left right
  if left.view = .float then
    let relation ← compareFloats relation left right
    floatJump relation target
  else
    compareIntegers left right
    instr (.jcc (condition relation) target)
  free left
  free right

/-- Take a register for the float zero. -/
def floatZero : Emit Reg := do
  let zero ← allocate .float
  let z ← operand zero
  instr (.sse .xorpd z z)
  return zero

/-- Compare a float with zero, and give its register back. -/
def testFloat (r : Reg) : Emit Unit := do
  let zero ← floatZero
  let src ← operand zero
  let dst ← operand r
  instr (.sse .ucomisd src dst)
  free zero
  free r

/-- Jump if a value compares with zero as `relation`, which is `eq` or `ne`. The register is given
back. A NaN is not zero. -/
def testAndJump (relation : Relation) (r : Reg) (target : String) : Emit Unit := do
  check r
  if r.view = .float then
    testFloat r
    floatJump relation target
  else
    let q ← quad r
    instr (.alu .test .quad q q)
    free r
    instr (.jcc (condition relation) target)

/-- Jump if a value is zero. -/
def jumpIfZero (r : Reg) (target : String) : Emit Unit := testAndJump .eq r target

/-- Jump if a value is not zero. -/
def jumpIfNotZero (r : Reg) (target : String) : Emit Unit := testAndJump .ne r target

/-- Jump. -/
def jump (target : String) : Emit Unit := instr (.jmp target)

end MiniC.Emit
