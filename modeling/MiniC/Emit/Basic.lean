import MiniC.Emit.Convention
import MiniC.Label
import MiniC.Pool

/-!
# The emitter

Code is generated by operations that each append a few lines to the text and take or give back
registers. An operation that fails keeps the lines it has appended, so the state comes out of a
failure too. This module holds the state and what all operations are made of.
-/

set_option autoImplicit false

namespace MiniC

open MiniC.X86 (Gpr Register Operand Instr Line Directive)

/-- What generation depends on beside the program. -/
structure Emit.Setting where
  /-- The constants that have a label. -/
  pool : Pool := {}
  /-- Whether a register that is still taken at the end of a statement is a failure; otherwise it
  is given back with a warning. -/
  strict : Bool := true

/-- The code so far, and what is taken at this point of it. -/
structure Emitter where
  bank : { b : Emit.Bank Emit.registerFile // b.Coherent } := ⟨.new _, Emit.Bank.coherent_new⟩
  text : Array Line := #[]
  data : Array Line := #[]
  /-- How many words of eight bytes lie on the stack below the frame. -/
  pushed : Nat := 0
  warnings : Array String := #[]
  labels : LabelCounter := {}

instance : Inhabited Emitter := ⟨{}⟩

/-- An operation of the emitter. -/
abbrev Emit (α : Type) : Type := ReaderT Emit.Setting (ExceptT Emit.Error (StateM Emitter)) α

namespace Emit

/-- Do an operation from a state, and give its outcome and the state after it. -/
def exec {α : Type} (m : Emit α) (setting : Setting) (e : Emitter) : Except Error α × Emitter :=
  m setting e

/-- Fail with an error of a computation without effect. -/
def ofExcept {α : Type} : Except Error α → Emit α
  | .ok a => pure a
  | .error e => throw e

/-- Append a line to the text. -/
def line (l : Line) : Emit Unit := modify fun e => { e with text := e.text.push l }

/-- Append an instruction to the text. -/
def instr (i : Instr) : Emit Unit := line (.instr i)

/-- Append instructions to the text. -/
def instrs : List Instr → Emit Unit
  | [] => pure ()
  | i :: rest => do
    instr i
    instrs rest

/-- Append a label to the text. -/
def label (name : String) : Emit Unit := line (.label name)

/-- Append a directive to the text. -/
def directive (d : Directive) : Emit Unit := line (.directive d)

/-- A number for the labels of a construct. -/
def freshId (kind : String) : Emit Nat := do
  let e ← get
  let (id, labels) := e.labels.next kind
  set { e with labels }
  return id

/-- Take a register. -/
def allocate (view : Scalar) : Emit Reg := do
  let e ← get
  match h : e.bank.val.allocate view with
  | .error err => throw err
  | .ok (r, bank) =>
    set { e with bank := ⟨bank, e.bank.property.allocate h⟩ }
    return r

/-- Give a register back. -/
def free (r : Reg) : Emit Unit := do
  let e ← get
  match h : e.bank.val.free r with
  | .error err => throw err
  | .ok bank => set { e with bank := ⟨bank, e.bank.property.free h⟩ }

/-- Free all registers. -/
def freeAll : Emit Unit :=
  modify fun e => { e with bank := ⟨e.bank.val.freeAll, e.bank.property.freeAll⟩ }

/-- Make sure that a handle is good. -/
def check (r : Reg) : Emit Unit := do
  let e ← get
  ofExcept (e.bank.val.check r)

/-- The register behind a handle, as wide as the type it is seen as. -/
def operand (r : Reg) : Emit Operand := do
  let e ← get
  let name ← ofExcept (e.bank.val.nameOf r)
  return .reg name

/-- The whole integer register behind a handle. -/
def quad (r : Reg) : Emit Operand := do
  let r ← ofExcept (r.as .long)
  operand r

/-- The low four bytes of the integer register behind a handle. -/
def long (r : Reg) : Emit Operand := do
  let r ← ofExcept (r.as .int)
  operand r

/-- The low byte of the integer register behind a handle. -/
def byte (r : Reg) : Emit Operand := do
  let e ← get
  let name ← ofExcept (e.bank.val.byteNameOf r)
  return .reg name

/-- The general register that holds an address. -/
def pointer (r : Reg) : Emit Gpr := do
  check r
  match valueGprs[r.slot]? with
  | some g => return g
  | none => throw (.outOfRange r.view r.slot)

/-- Make sure that two operands are good and of one type. -/
def sameView (operation : String) (left right : Reg) : Emit Unit := do
  check left
  check right
  if left.view ≠ right.view then throw (.typeMismatch operation left.view right.view)

/-- Make sure that an operand is good and of a type. -/
def expectView (operation : String) (r : Reg) (view : Scalar) : Emit Unit := do
  check r
  if r.view ≠ view then throw (.typeMismatch operation r.view view)

/-- Registers that are still taken when `scope` ends are a failure, or are freed with a warning. -/
def releaseLeaks (scope : String) : Emit Unit := do
  let e ← get
  let live := e.bank.val.liveCount
  if live ≠ 0 then
    if (← read).strict then throw (.misuse (.stillLive live scope))
    else
      modify fun e =>
        { e with
          warnings := e.warnings.push
            (toString live ++ " register(s) leaked at the end of " ++ scope ++ ", reclaiming") }
      freeAll

/-- Fill the upper bits of a register after an operation on all of it: an `int` is extended by its
sign and a `char` by zeros. -/
def normalize (r : Reg) : Emit Unit :=
  match r.view with
  | .int => do instr (.movSign .long .quad (← long r) (← quad r))
  | .char => do instr (.movZero .byte .quad (← byte r) (← quad r))
  | .long => pure ()
  | .float => pure ()

end Emit

end MiniC
