import MiniC.Symbol
import MiniC.X86.Register

/-!
# Instructions of the x86-64

The instructions that generated code is made of, as data: operands are registers, constants and
places in memory, and stand in the assembler's order, the source before the destination. A `Line`
is an instruction or what the assembler is told beside them.
-/

set_option autoImplicit false

namespace MiniC.X86

/-- A place in memory. -/
inductive Mem where
  /-- A number of bytes from the frame pointer. -/
  | frame (offset : Int)
  /-- A number of bytes after a label of the data section. -/
  | data (label : String) (offset : Int)
  /-- Where a register points. -/
  | indirect (base : Gpr)
  /-- Where a register points, moved by `scale` times another register. -/
  | indexed (base index : Gpr) (scale : Nat)
  /-- An address expression left to the assembler. -/
  | expression (text : String)
deriving DecidableEq, Repr, Inhabited

/-- The place some bytes after the start of an object. -/
def Mem.within : Address → Int → Mem
  | .label name, offset => .data name offset
  | .frame base, offset => .frame (base + offset)

/-- An operand of an instruction. -/
inductive Operand where
  | reg (r : Register)
  | imm (v : Int64)
  | mem (m : Mem)
deriving DecidableEq, Repr, Inhabited

namespace Operand

/-- The whole of a general register as an operand. -/
abbrev quad (r : Gpr) : Operand := reg (.quad r)

/-- The top of the stack. -/
abbrev top : Operand := mem (.indirect .rsp)

end Operand

/-- What a conditional instruction asks of the flags. -/
inductive Cond where
  | e
  | ne
  | l
  | le
  | g
  | ge
  | a
  | ae
  | b
  | be
  /-- The last floating-point comparison met a NaN. -/
  | p
  | np
deriving DecidableEq, Repr, Inhabited

namespace Cond

/-- The condition that holds when this one does not. -/
def negate : Cond → Cond
  | e => ne
  | ne => e
  | l => ge
  | ge => l
  | le => g
  | g => le
  | a => be
  | be => a
  | ae => b
  | b => ae
  | p => np
  | np => p

/-- The end of the mnemonic of a conditional instruction. -/
def text : Cond → String
  | e => "e"
  | ne => "ne"
  | l => "l"
  | le => "le"
  | g => "g"
  | ge => "ge"
  | a => "a"
  | ae => "ae"
  | b => "b"
  | be => "be"
  | p => "p"
  | np => "np"

end Cond

/-- Integer instructions with two operands. -/
inductive Alu where
  | add
  | sub
  | imul
  | and
  | or
  | xor
  | cmp
  | test
deriving DecidableEq, Repr, Inhabited

def Alu.text : Alu → String
  | add => "add"
  | sub => "sub"
  | imul => "imul"
  | and => "and"
  | or => "or"
  | xor => "xor"
  | cmp => "cmp"
  | test => "test"

/-- Floating-point instructions with two operands. -/
inductive Sse where
  | movsd
  | addsd
  | subsd
  | mulsd
  | divsd
  | ucomisd
  | xorpd
deriving DecidableEq, Repr, Inhabited

def Sse.text : Sse → String
  | movsd => "movsd"
  | addsd => "addsd"
  | subsd => "subsd"
  | mulsd => "mulsd"
  | divsd => "divsd"
  | ucomisd => "ucomisd"
  | xorpd => "xorpd"

/-- A machine instruction. -/
inductive Instr where
  | mov (width : Width) (src dst : Operand)
  /-- Load a constant that needs all 64 bits. -/
  | movAbs (value : Int64) (dst : Operand)
  /-- Move and fill the upper bits with zeros. -/
  | movZero (narrow wide : Width) (src dst : Operand)
  /-- Move and fill the upper bits with the sign. -/
  | movSign (narrow wide : Width) (src dst : Operand)
  /-- Load the address of `src`. -/
  | lea (src dst : Operand)
  | alu (op : Alu) (width : Width) (src dst : Operand)
  | shl (width : Width) (count dst : Operand)
  | sar (width : Width) (count dst : Operand)
  | neg (width : Width) (dst : Operand)
  | not (width : Width) (dst : Operand)
  | inc (width : Width) (dst : Operand)
  | dec (width : Width) (dst : Operand)
  /-- Divide `rdx:rax`, the quotient into `rax` and the remainder into `rdx`. -/
  | idiv (width : Width) (divisor : Operand)
  /-- Extend the sign of `rax` into `rdx`. -/
  | cqo
  | set (cond : Cond) (dst : Operand)
  | sse (op : Sse) (src dst : Operand)
  /-- Convert an integer to a float. -/
  | cvtsi2sd (width : Width) (src dst : Operand)
  /-- Convert a float to an integer, dropping the fraction. -/
  | cvttsd2si (width : Width) (src dst : Operand)
  | push (src : Operand)
  | pop (dst : Operand)
  | jmp (label : String)
  | jcc (cond : Cond) (label : String)
  | call (target : String)
  | leave
  | ret
deriving DecidableEq, Repr, Inhabited

/-- An instruction to the assembler. -/
inductive Directive where
  | data
  | text
  /-- Make a label known to other files. -/
  | globl (name : String)
  /-- Say that a label is a function. -/
  | functionType (name : String)
  /-- The size of a function, from its label to here. -/
  | functionSize (name : String)
  | balign (bytes : Nat)
  | double (x : Float)
  /-- An integer of the size of a scalar type. -/
  | integer (width : Width) (n : Int64)
  /-- The address of a label. -/
  | address (label : String)
  /-- The bytes of a string and a null byte. -/
  | string (s : String)
  | zero (bytes : Nat)
  /-- Say that the code needs no executable stack. -/
  | plainStack
  /-- Anything else, as written. -/
  | verbatim (text : String)
deriving Repr, Inhabited

/-- A line of an assembly file. -/
inductive Line where
  | instr (i : Instr)
  | label (name : String)
  | directive (d : Directive)
  | comment (text : String)
deriving Repr, Inhabited

end MiniC.X86
