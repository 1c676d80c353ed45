import MiniC.Emit.Bank

/-!
# The calling convention

Which registers hold the values of expressions, which ones carry arguments and results, and how a
function sets up its frame. Addresses grow downwards:

```
  8(%rbp)   where to return to
  0(%rbp)   the caller's frame pointer
 -N(%rbp)   the function's objects, N bytes
            the caller's values of the integer registers of the bank
  (%rsp)    a multiple of sixteen at every call
```

A call keeps the integer registers of the bank, and may change the float registers.
-/

set_option autoImplicit false

namespace MiniC.Emit

open MiniC.X86 (Gpr Register Operand Instr)

/-- The general registers that hold values. -/
def valueGprs : List Gpr := [.rbx, .r12, .r13, .r14]

/-- The floating-point registers that hold values. -/
def valueXmms : List (Fin 16) := [8, 9, 10, 11]

/-- The registers that hold the values of expressions. -/
def registerFile : RegisterFile Register where
  intSlots := 4
  floatSlots := 4
  name
    | .int, slot => valueGprs[slot]?.map .long
    | .char, slot => valueGprs[slot]?.map .byte
    | .long, slot => valueGprs[slot]?.map .quad
    | .float, slot => valueXmms[slot]?.map .xmm
  byteName slot := valueGprs[slot]?.map .byte

/-- The registers of integer arguments, in order. -/
def argumentGprs : List Gpr := [.rdi, .rsi, .rdx, .rcx, .r8, .r9]

/-- The registers of float arguments, in order. -/
def argumentXmms : List (Fin 16) := [0, 1, 2, 3, 4, 5, 6, 7]

/-- The register of a float result. -/
def resultXmm : Fin 16 := 0

/-- Give each argument the next register of its kind, where `index` arguments have been given
theirs. -/
def assignFrom (gprs : List Gpr) (xmms : List (Fin 16)) (index : Nat) :
    List Scalar → Except Error (List Register)
  | [] => .ok []
  | view :: views =>
    let fail := .error (.unsupported (.argument index view))
    if view.isInteger then
      match gprs with
      | [] => fail
      | r :: gprs => (assignFrom gprs xmms (index + 1) views).map (.quad r :: ·)
    else
      match xmms with
      | [] => fail
      | r :: xmms => (assignFrom gprs xmms (index + 1) views).map (.xmm r :: ·)

/-- The registers in which arguments are passed. Integers and floats are counted apart. -/
def assignArguments (views : List Scalar) : Except Error (List Register) :=
  assignFrom argumentGprs argumentXmms 0 views

/-- The alignment of the stack at a call. -/
def stackAlign : Nat := 16

/-- Bytes reserved for a function's objects. -/
def frameBytes (size : Nat) : Nat := roundUp size stackAlign

/-- Set up the frame of a function. The integer registers pushed at the end are an even number, so
the stack stays aligned. -/
def openFrame (size : Nat) : List Instr :=
  [.push (.quad .rbp), .mov .quad (.quad .rsp) (.quad .rbp)] ++
    (if 0 < frameBytes size then
      [.alu .sub .quad (.imm (Int64.ofNat (frameBytes size))) (.quad .rsp)]
    else []) ++
    valueGprs.map fun r => .push (.quad r)

/-- Give the caller its registers back and return. -/
def closeFrame : List Instr :=
  (valueGprs.reverse.map fun r => .pop (.quad r)) ++ [.leave, .ret]

end MiniC.Emit
