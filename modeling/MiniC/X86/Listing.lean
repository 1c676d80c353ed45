import MiniC.Number.Written
import MiniC.Text.Octal
import MiniC.X86.Instr

/-!
# Assembly listings

The text of instructions and directives in the AT&T style of the GNU assembler: a line each, labels
at the margin and all else after a tab.
-/

set_option autoImplicit false

namespace MiniC.X86

def Mem.text : Mem → String
  | frame offset => toString offset ++ "(%rbp)"
  | data label offset =>
    if offset = 0 then label ++ "(%rip)" else label ++ "+" ++ toString offset ++ "(%rip)"
  | indirect base => "(" ++ (Register.quad base).text ++ ")"
  | indexed base index scale =>
    "(" ++ (Register.quad base).text ++ "," ++ (Register.quad index).text ++ "," ++
      toString scale ++ ")"
  | expression text => text

def Operand.text : Operand → String
  | reg r => r.text
  | imm v => "$" ++ toString v.toInt
  | mem m => m.text

namespace Instr

/-- A mnemonic with one operand. -/
def unaryText (mnemonic : String) (operand : Operand) : String :=
  mnemonic ++ " " ++ operand.text

/-- A mnemonic with two operands. -/
def binaryText (mnemonic : String) (src dst : Operand) : String :=
  mnemonic ++ " " ++ src.text ++ ", " ++ dst.text

def text : Instr → String
  | mov w src dst => binaryText ("mov" ++ w.text) src dst
  | movAbs v dst => binaryText "movabsq" (.imm v) dst
  | movZero narrow wide src dst => binaryText ("movz" ++ narrow.text ++ wide.text) src dst
  | movSign narrow wide src dst => binaryText ("movs" ++ narrow.text ++ wide.text) src dst
  | lea src dst => binaryText "leaq" src dst
  | alu op w src dst => binaryText (op.text ++ w.text) src dst
  | shl w count dst => binaryText ("shl" ++ w.text) count dst
  | sar w count dst => binaryText ("sar" ++ w.text) count dst
  | neg w dst => unaryText ("neg" ++ w.text) dst
  | not w dst => unaryText ("not" ++ w.text) dst
  | inc w dst => unaryText ("inc" ++ w.text) dst
  | dec w dst => unaryText ("dec" ++ w.text) dst
  | idiv w divisor => unaryText ("idiv" ++ w.text) divisor
  | cqo => "cqo"
  | set c dst => unaryText ("set" ++ c.text) dst
  | sse op src dst => binaryText op.text src dst
  | cvtsi2sd w src dst => binaryText ("cvtsi2sd" ++ w.text) src dst
  | cvttsd2si w src dst => binaryText ("cvttsd2si" ++ w.text) src dst
  | push src => unaryText "pushq" src
  | pop dst => unaryText "popq" dst
  | jmp label => "jmp " ++ label
  | jcc c label => "j" ++ c.text ++ " " ++ label
  | call target => "call " ++ target
  | leave => "leave"
  | ret => "ret"

end Instr

namespace Directive

/-- The directive for an integer of a width. -/
def integerName : Width → String
  | .byte => ".byte"
  | .long => ".long"
  | .quad => ".quad"

def write : Directive → String
  | data => ".data"
  | text => ".text"
  | globl name => ".globl " ++ name
  | functionType name => ".type " ++ name ++ ", @function"
  | functionSize name => ".size " ++ name ++ ", .-" ++ name
  | balign bytes => ".balign " ++ toString bytes
  | double x => ".double " ++ Number.FloatStyle.listing.write x
  | integer w n => integerName w ++ " " ++ toString n.toInt
  | address label => ".quad " ++ label
  | string s => ".string \"" ++ Text.escapeString s ++ "\""
  | zero bytes => ".zero " ++ toString bytes
  | plainStack => ".section .note.GNU-stack,\"\",@progbits"
  | verbatim line => line

end Directive

def Line.text : Line → String
  | instr i => "\t" ++ i.text
  | label name => name ++ ":"
  | directive d => "\t" ++ d.write
  | comment text => "\t# " ++ text

/-- The lines of a file, each ended by a line feed. -/
def listing (lines : List Line) : String :=
  String.join (lines.map fun line => line.text ++ "\n")

end MiniC.X86
