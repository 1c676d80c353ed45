import MiniC.Diagnostic
import MiniC.Lower.Expr

/-!
# Code of statements

A statement gives back every register it takes. Loops and branches are made of labels:

```
if (c) s else t                     for (a; c; u) s
    c, if not to .Lif0_false            a
.Lif0_then:                         .Lfor0_start:
    s                                   c, if not to .Lfor0_end
    to .Lif0_end                        s
.Lif0_false:                            u
    t                                   to .Lfor0_start
.Lif0_end:                          .Lfor0_end:
```
-/

set_option autoImplicit false

namespace MiniC.Lower

open Emit

/-- A failure and the statement or declaration it happened in. -/
structure Failure where
  place : Location
  cause : Emit.Error

def Failure.diagnostic (f : Failure) : Diagnostic := .codegen f.place f.cause.message

/-- Emission in which failures are located. -/
abbrev Located (α : Type) : Type := ReaderT Setting (ExceptT Failure (StateM Emitter)) α

/-- Say where a failure happens. -/
def located {α : Type} (place : Location) (m : Emit α) : Located α := fun setting =>
  ExceptT.adapt (fun cause => ⟨place, cause⟩) (m setting)

/-- No register stays taken after a statement. -/
def finish (place : Location) : Located Unit :=
  located place (releaseLeaks ("the statement at " ++ place.text))

/-- Print a value: which routine is called depends on its type. -/
def print (value : Typed.Expr) : Emit Unit :=
  let callWith (routine : String) : Emit Unit := do
    let r ← expr value
    let _ ← callFunction routine (some r) .void
  let callWithLength (routine : String) (length : Nat) : Emit Unit := do
    let address ← expr value
    printArray address routine length
  match value.type with
  | .array .int length => callWithLength "printarray" length
  | .array .float length => callWithLength "printfloatarray" length
  | .array .char _ => callWith "printstring"
  | .array .long length => throw (.unsupportedType "print" (.array .long length))
  | .scalar .int => callWith "printint"
  | .scalar .char => callWith "printchar"
  | .scalar .long => callWith "printlong"
  | .scalar .float => callWith "printfloat"
  | .pointer .char => callWith "printstring"
  | .pointer _ => callWith "printlong"
  | .void => throw (.unsupportedType "print" .void)

/-- Take a register for the zero of a type. There are no float constants in instructions, so the
integer zero is converted. -/
def zero : Scalar → Emit Reg
  | .char => loadImmediate (.char 0)
  | .int => loadImmediate (.int 0)
  | .long => loadImmediate (.long 0)
  | .float => do
    let r ← loadImmediate (.long 0)
    convert r .long .float

/-- Store expressions into the elements of an array from an index on. -/
def storeElements (s : Symbol) (index : Nat) : List Typed.Expr → Emit Unit
  | [] => pure ()
  | value :: values => do
    let r ← expr value
    storeElement r s index
    free r
    storeElements s (index + 1) values

/-- Store a register into a number of elements of an array from an index on. -/
def fillElements (r : Reg) (s : Symbol) (index : Nat) : Nat → Emit Unit
  | 0 => pure ()
  | count + 1 => do
    storeElement r s index
    fillElements r s (index + 1) count

/-- Initialize a local object. The elements of an array that are not given are zero. -/
def localInit (s : Symbol) : Typed.LocalInit → Emit Unit
  | .scalar value => do
    let r ← expr value
    storeSymbol r s
    free r
  | .elements values =>
    match s.type with
    | .array element length => do
      storeElements s 0 values
      if values.length < length then
        let r ← zero element
        fillElements r s values.length (length - values.length)
        free r
    | type => throw (.unsupportedType "element initializer" type)

/-- Return from a function, with a value or without. -/
def ret (f : Routine) (value : Option Typed.Expr) : Emit Unit := do
  match value with
  | some value =>
    let r ← expr value
    returnValue r f.result
  | none => pure ()
  jump (returnLabel f.name)

/-- Jump to `target` if there is a condition and it does not hold. -/
def optionalCondition (e : Option Typed.Expr) (target : String) : Emit Unit :=
  match e with
  | some e => condition e target
  | none => pure ()

/-- Compute an expression, if there is one, and drop its value. -/
def optionalDiscard (e : Option Typed.Expr) : Emit Unit :=
  match e with
  | some e => discard e
  | none => pure ()

mutual

/-- Emit a statement of a function. -/
def stmt (f : Routine) : Typed.Stmt → Located Unit
  | .block body => stmts f body
  | .print value place => do
    located place (print value)
    finish place
  | .declare s init place => do
    match init with
    | some init => located place (localInit s init)
    | none => pure ()
    finish place
  | .expr e place => do
    located place (discard e)
    finish place
  | .cond c thenBranch elseBranch place => do
    let id ← located place (freshId "if")
    let target := controlLabel "if" id "false"
    let stop := controlLabel "if" id "end"
    located place (condition c target)
    located place (label (controlLabel "if" id "then"))
    stmt f thenBranch
    located place (jump stop)
    located place (label target)
    optionalStmt f elseBranch
    located place (label stop)
  | .whileLoop c body place => do
    let id ← located place (freshId "while")
    let start := controlLabel "while" id "start"
    let stop := controlLabel "while" id "end"
    located place (label start)
    located place (condition c stop)
    stmt f body
    located place (jump start)
    located place (label stop)
    finish place
  | .forLoop init c update body place => do
    optionalStmt f init
    let id ← located place (freshId "for")
    let start := controlLabel "for" id "start"
    let stop := controlLabel "for" id "end"
    located place (label start)
    located place (optionalCondition c stop)
    stmt f body
    located place (optionalDiscard update)
    located place (jump start)
    located place (label stop)
    finish place
  | .ret value place => do
    located place (ret f value)
    finish place
  | .empty => pure ()

/-- Emit statements one after the other. -/
def stmts (f : Routine) : List Typed.Stmt → Located Unit
  | [] => pure ()
  | s :: rest => do
    stmt f s
    stmts f rest

/-- Emit a statement if there is one. -/
def optionalStmt (f : Routine) : Option Typed.Stmt → Located Unit
  | none => pure ()
  | some s => stmt f s

end

end MiniC.Lower
