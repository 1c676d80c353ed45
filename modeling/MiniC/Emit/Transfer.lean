import MiniC.Emit.Basic

/-!
# Moving values

Loading constants and objects into registers, storing registers into objects, and computing
addresses. A register always holds an integer extended to all its bits.
-/

set_option autoImplicit false

namespace MiniC.Emit

open MiniC.X86 (Gpr Register Operand Instr Mem Alu)

/-- The place of an object. -/
def place (s : Symbol) : Operand := .mem (.within s.address 0)

/-- Whether a constant is the sign extension of its low four bytes. -/
def fitsLong (v : Int64) : Bool := -0x80000000 ≤ v.toInt && v.toInt < 0x80000000

/-- Put a constant into a register that is taken. -/
def moveImmediate (r : Reg) (value : Int64) : Emit Unit := do
  let dst ← quad r
  if fitsLong value then instr (.mov .quad (.imm value) dst) else instr (.movAbs value dst)

/-- Take a register for an integer constant. -/
def loadInteger (view : Scalar) (value : Int64) : Emit Reg := do
  let r ← allocate view
  moveImmediate r value
  return r

/-- Take a register for a constant. Floats and the addresses of strings come from the pools. -/
def loadImmediate (value : Value) : Emit Reg :=
  match value with
  | .int v => loadInteger .int v.toInt64
  | .char v => loadInteger .char (Int64.ofNat v.toNat)
  | .long v => loadInteger .long v
  | .float x => do
    match (← read).pool.floatLabel? x with
    | none => throw (.misuse (.floatNotPooled x))
    | some label =>
      let r ← allocate .float
      instr (.sse .movsd (.mem (.data label 0)) (← operand r))
      return r
  | .str s => do
    match (← read).pool.stringLabel? s with
    | none => throw (.misuse (.stringNotPooled s))
    | some label =>
      let r ← allocate .long
      instr (.lea (.mem (.data label 0)) (← operand r))
      return r

/-- Load an object of a type into a register that is taken. -/
def loadInto (r : Reg) (type : CType) (src : Operand) : Emit Unit :=
  match type with
  | .scalar .char => do instr (.movZero .byte .quad src (← quad r))
  | .scalar .int => do instr (.movSign .long .quad src (← quad r))
  | .scalar .long => do instr (.mov .quad src (← quad r))
  | .pointer _ => do instr (.mov .quad src (← quad r))
  | .scalar .float => do instr (.sse .movsd src (← operand r))
  | .void => throw (.unsupportedType "load" type)
  | .array _ _ => throw (.unsupportedType "load" type)

/-- Store a register into an object of a type. -/
def storeTo (r : Reg) (type : CType) (dst : Operand) : Emit Unit :=
  match type with
  | .void => throw (.unsupportedType "store" type)
  | .array _ _ => throw (.unsupportedType "store" type)
  | .scalar .char => do
    expectView "store" r .char
    instr (.mov .byte (← byte r) dst)
  | .scalar .int => do
    expectView "store" r .int
    instr (.mov .long (← long r) dst)
  | .scalar .float => do
    expectView "store" r .float
    instr (.sse .movsd (← operand r) dst)
  | .scalar .long => do
    expectView "store" r .long
    instr (.mov .quad (← quad r) dst)
  | .pointer _ => do
    expectView "store" r .long
    instr (.mov .quad (← quad r) dst)

/-- Take a register for the address of an object. -/
def addressOf (s : Symbol) : Emit Reg := do
  let r ← allocate .long
  instr (.lea (place s) (← operand r))
  return r

/-- Take a register for the value of an object. The value of an array is its address. -/
def loadSymbol (s : Symbol) : Emit Reg :=
  if s.type.isArray then addressOf s
  else do
    let view ← ofExcept (held s.type)
    let r ← allocate view
    loadInto r s.type (place s)
    return r

/-- Store a register into an object. The register stays taken. -/
def storeSymbol (r : Reg) (s : Symbol) : Emit Unit := storeTo r s.type (place s)

/-- Store a register into an element of an array. The register stays taken. -/
def storeElement (r : Reg) (s : Symbol) (index : Nat) : Emit Unit :=
  match s.type with
  | .array element length =>
    if length ≤ index then throw (.misuse (.pastEnd index s.name length))
    else
      let offset := index * element.size
      if offset < 0x80000000 then storeTo r (.scalar element) (.mem (.within s.address offset))
      else throw (.unsupported (.elementTooFar index s.name))
  | type => throw (.unsupportedType "element store" type)

/-- Load what an address points to, in place of the address. A float needs a register of its own
kind. -/
def dereference (r : Reg) (type : CType) : Emit Reg :=
  match type.element? with
  | none => throw (.unsupportedType "dereference" type)
  | some element => do
    expectView "dereference" r .long
    let src : Operand := .mem (.indirect (← pointer r))
    if element = .float then
      let value ← allocate .float
      loadInto value (.scalar element) src
      free r
      return value
    else
      loadInto r (.scalar element) src
      ofExcept (r.as element)

/-- Store a register where an address points, and give the address back. -/
def storeIndirect (value address : Reg) (type : CType) : Emit Unit :=
  match type.element? with
  | none => throw (.unsupportedType "indirect store" type)
  | some element => do
    expectView "indirect store" address .long
    let dst : Operand := .mem (.indirect (← pointer address))
    storeTo value (.scalar element) dst
    free address

/-- Move the address in `base` by `index` elements, and give `index` back. -/
def elementAddress (base index : Reg) (element : Scalar) : Emit Reg := do
  expectView "element address" base .long
  expectView "element address" index .long
  let b ← pointer base
  let i ← pointer index
  instr (.lea (.mem (.indexed b i element.size)) (.quad b))
  free index
  return base

/-- How far `++` and `--` move an object: a pointer by the size of what it points to. -/
def stepAmount? : CType → Option Nat
  | .scalar s => if s.isInteger then some 1 else none
  | .pointer element => some element.size
  | _ => none

/-- Count an object up or down. The register holds the new value, or the old one if `after` says
that the operator stands after its operand. -/
def step (s : Symbol) (increment after : Bool) : Emit Reg :=
  match stepAmount? s.type with
  | none => throw (.unsupportedType "increment/decrement" s.type)
  | some amount => do
    let op : Alu := if increment then .add else .sub
    let value ← loadSymbol s
    let updated ←
      if after then do
        let copy ← allocate value.view
        instr (.mov .quad (← quad value) (← quad copy))
        pure copy
      else pure value
    instr (.alu op .quad (.imm (Int64.ofNat amount)) (← quad updated))
    normalize updated
    storeSymbol updated s
    if after then free updated
    return value

end MiniC.Emit
