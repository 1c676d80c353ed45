import MiniC.Emit.Transfer

/-!
# Functions and calls

Entering and leaving a function, and calling one. A single argument is moved to its register; more
arguments are pushed as they are evaluated and popped into their registers just before the call, so
that an argument may itself be a call.
-/

set_option autoImplicit false

namespace MiniC.Emit

open MiniC.X86 (Gpr Register Operand Instr)

/-- Bytes of a word on the stack. -/
def wordBytes : Nat := 8

/-- Make room on the stack. -/
def growStack (bytes : Nat) : Emit Unit :=
  instr (.alu .sub .quad (.imm (Int64.ofNat bytes)) (.quad .rsp))

/-- Give room on the stack back. -/
def shrinkStack (bytes : Nat) : Emit Unit :=
  instr (.alu .add .quad (.imm (Int64.ofNat bytes)) (.quad .rsp))

/-- Count a word that has been pushed. -/
def countPush : Emit Unit := modify fun e => { e with pushed := e.pushed + 1 }

/-- Count a word that has been popped. -/
def countPop : Emit Unit := modify fun e => { e with pushed := e.pushed - 1 }

/-- Push a float, whose register stays taken. -/
def pushFloat (r : Reg) : Emit Unit := do
  growStack wordBytes
  instr (.sse .movsd (← operand r) .top)
  countPush

/-- Pop a float into a register that is taken. -/
def popFloat (r : Reg) : Emit Unit := do
  instr (.sse .movsd .top (← operand r))
  shrinkStack wordBytes
  countPop

/-- Move a value to a register of the calling convention. -/
def moveOut (r : Reg) (target : Register) : Emit Unit := do
  if r.view = .float then instr (.sse .movsd (← operand r) (.reg target))
  else instr (.mov .quad (← quad r) (.reg target))

/-- Move a value from a register of the calling convention. -/
def moveIn (r : Reg) (source : Register) : Emit Unit := do
  if r.view = .float then instr (.sse .movsd (.reg source) (← operand r))
  else instr (.mov .quad (.reg source) (← quad r))

/-- Store incoming arguments into the parameters' objects. -/
def storeParameters : List Symbol → List Register → Emit Unit
  | p :: ps, source :: sources => do
    let view ← ofExcept (held p.type)
    let r ← allocate view
    moveIn r source
    storeSymbol r p
    free r
    storeParameters ps sources
  | _, _ => pure ()

/-- Begin a function: its label, its frame and its parameters. -/
def prologue (f : Routine) (parameters : List Symbol) : Emit Unit := do
  if 0x80000000 ≤ f.frameSize then throw (.unsupported (.frameTooLarge f.frameSize f.name))
  else
    modify fun e => { e with pushed := 0 }
    directive (.globl f.name)
    directive (.functionType f.name)
    label f.name
    instrs (openFrame f.frameSize)
    let views ← ofExcept (parameters.mapM fun p => held p.type)
    let sources ← ofExcept (assignArguments views)
    storeParameters parameters sources

/-- End a function: the label where its `return`s meet, and the way back. A function whose end is
reached returns zero. -/
def epilogue (f : Routine) : Emit Unit := do
  let pushed := (← get).pushed
  if pushed ≠ 0 then throw (.misuse (.stillPushed (pushed * wordBytes) f.name))
  else
    releaseLeaks f.name
    instr (.alu .xor .long (.reg (.long .rax)) (.reg (.long .rax)))
    label (returnLabel f.name)
    instrs closeFrame
    directive (.functionSize f.name)

/-- Put the result of a function into its register, and give the value's register back. -/
def returnValue (r : Reg) (type : CType) : Emit Unit := do
  let view ← ofExcept (held type)
  expectView "return" r view
  moveOut r (if r.view = .float then .xmm resultXmm else .quad .rax)
  free r

/-- Take a register for the result of a call, extended from the width of its type. -/
def takeResult (type : CType) : Emit (Option Reg) :=
  if type.isVoid then pure none
  else do
    let view ← ofExcept (held type)
    let result ← allocate view
    match type with
    | .scalar .float => instr (.sse .movsd (.reg (.xmm resultXmm)) (← operand result))
    | .scalar .int => instr (.movSign .long .quad (.reg (.long .rax)) (← quad result))
    | .scalar .char => instr (.movZero .byte .quad (.reg (.byte .rax)) (← quad result))
    | _ => instr (.mov .quad (.quad .rax) (← quad result))
    return some result

/-- Push each of the floats, the first one first. -/
def pushFloats : List Reg → Emit Unit
  | [] => pure ()
  | r :: rs => do
    pushFloat r
    pushFloats rs

/-- Pop the floats that `pushFloats` pushed, the last one first. -/
def popFloats : List Reg → Emit Unit
  | [] => pure ()
  | r :: rs => do
    popFloats rs
    popFloat r

/-- The call itself, with its arguments in their registers. The floats that are live are saved on
the stack around it, and the stack is aligned. -/
def callAligned (name : String) (type : CType) : Emit (Option Reg) := do
  let floats := (← get).bank.val.live .float
  pushFloats floats
  let padding := (← get).pushed * wordBytes % stackAlign
  if padding ≠ 0 then growStack padding
  instr (.call name)
  if padding ≠ 0 then shrinkStack padding
  popFloats floats
  takeResult type

/-- Call a function with at most one argument, whose register is given back. -/
def callFunction (name : String) (argument : Option Reg) (type : CType) : Emit (Option Reg) := do
  match argument with
  | none => pure ()
  | some r =>
    check r
    match ← ofExcept (assignArguments [r.view]) with
    | [] => pure ()
    | target :: _ => moveOut r target
    free r
  callAligned name type

/-- Push an argument, and give its register back. -/
def pushArgument (r : Reg) : Emit Unit := do
  check r
  if r.view = .float then pushFloat r
  else
    instr (.push (← quad r))
    countPush
  free r

/-- Pop arguments into their registers, the last one first. -/
def popArguments : List Register → Emit Unit
  | [] => pure ()
  | target :: targets => do
    popArguments targets
    match target with
    | .xmm _ =>
      instr (.sse .movsd .top (.reg target))
      shrinkStack wordBytes
    | .gpr _ _ => instr (.pop (.reg target))
    countPop

/-- Call a function whose arguments have been pushed. -/
def callPushed (name : String) (views : List Scalar) (type : CType) : Emit (Option Reg) := do
  let targets ← ofExcept (assignArguments views)
  if (← get).pushed < views.length then
    throw (.misuse (.argumentsNotPushed name views.length))
  else
    popArguments targets
    callAligned name type

/-- Call a routine that prints the elements of an array at an address. -/
def printArray (address : Reg) (routine : String) (length : Nat) : Emit Unit := do
  expectView "print array" address .long
  moveOut address (.quad .rdi)
  instr (.mov .quad (.imm (Int64.ofNat length)) (.quad .rsi))
  free address
  let _ ← callAligned routine .void

end MiniC.Emit
