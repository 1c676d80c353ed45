/-!
# Registers of the x86-64

The sixteen general registers, each seen at the width of a byte, a long word (four bytes) or a
quad word (eight bytes), and the sixteen floating-point registers, with the names the assembler
gives them.
-/

set_option autoImplicit false

namespace MiniC.X86

/-- The width of an integer operand. -/
inductive Width where
  | byte
  | long
  | quad
deriving DecidableEq, Repr, Inhabited

namespace Width

/-- The letter that ends a mnemonic. -/
def text : Width → String
  | byte => "b"
  | long => "l"
  | quad => "q"

def all : List Width := [byte, long, quad]

end Width

/-- A general register, called by its full name. -/
inductive Gpr where
  | rax
  | rbx
  | rcx
  | rdx
  | rsi
  | rdi
  | rbp
  | rsp
  | r8
  | r9
  | r10
  | r11
  | r12
  | r13
  | r14
  | r15
deriving DecidableEq, Repr, Inhabited

namespace Gpr

def all : List Gpr :=
  [rax, rbx, rcx, rdx, rsi, rdi, rbp, rsp, r8, r9, r10, r11, r12, r13, r14, r15]

/-- The name of the whole register, without the sign that marks a register. -/
def quadName : Gpr → String
  | rax => "rax"
  | rbx => "rbx"
  | rcx => "rcx"
  | rdx => "rdx"
  | rsi => "rsi"
  | rdi => "rdi"
  | rbp => "rbp"
  | rsp => "rsp"
  | r8 => "r8"
  | r9 => "r9"
  | r10 => "r10"
  | r11 => "r11"
  | r12 => "r12"
  | r13 => "r13"
  | r14 => "r14"
  | r15 => "r15"

/-- The name of the low four bytes. -/
def longName : Gpr → String
  | rax => "eax"
  | rbx => "ebx"
  | rcx => "ecx"
  | rdx => "edx"
  | rsi => "esi"
  | rdi => "edi"
  | rbp => "ebp"
  | rsp => "esp"
  | r => r.quadName ++ "d"

/-- The name of the low byte. -/
def byteName : Gpr → String
  | rax => "al"
  | rbx => "bl"
  | rcx => "cl"
  | rdx => "dl"
  | rsi => "sil"
  | rdi => "dil"
  | rbp => "bpl"
  | rsp => "spl"
  | r => r.quadName ++ "b"

end Gpr

/-- A register as an operand. -/
inductive Register where
  /-- The low part of a general register, of some width. -/
  | gpr (r : Gpr) (width : Width)
  /-- A floating-point register. -/
  | xmm (index : Fin 16)
deriving DecidableEq, Repr, Inhabited

namespace Register

/-- The whole of a general register. -/
abbrev quad (r : Gpr) : Register := gpr r .quad

/-- The low four bytes of a general register. -/
abbrev long (r : Gpr) : Register := gpr r .long

/-- The low byte of a general register. -/
abbrev byte (r : Gpr) : Register := gpr r .byte

/-- The name of the register as the assembler reads it. -/
def text : Register → String
  | gpr r .quad => "%" ++ r.quadName
  | gpr r .long => "%" ++ r.longName
  | gpr r .byte => "%" ++ r.byteName
  | xmm i => "%xmm" ++ toString i.val

def all : List Register :=
  (Gpr.all.flatMap fun r => Width.all.map (gpr r)) ++ (List.finRange 16).map xmm

/-- The register of a name. -/
def ofText? (name : String) : Option Register := all.find? fun r => r.text == name

end Register

end MiniC.X86
