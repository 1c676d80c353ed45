import MiniC.Emit.Error

/-!
# The register bank

A fixed number of registers hold the values of expressions. The integer registers are seen in three
ways, as `int`, `char` and `long`, and taking or giving back a slot in one view marks it in all
three; the float registers are apart. The machine supplies the names through a `RegisterFile`.

Main statements: every operation keeps the bank `Coherent`, that is, the three integer views agree
and every view has its full number of slots.
-/

set_option autoImplicit false

namespace MiniC.Emit

/-- The type as which a register holds values of a type: an address is held as a `long`. -/
def held (type : CType) : Except Error Scalar :=
  match type with
  | .scalar s => .ok s
  | .pointer _ => .ok .long
  | .array _ _ => .ok .long
  | .void => .error (.unsupportedType "register class" .void)

/-- A handle to a slot of the bank, seen as a scalar type. It is good while the slot is taken. -/
structure Reg where
  view : Scalar
  slot : Nat
deriving DecidableEq, Repr, Inhabited

/-- The same slot seen as another integer type. -/
def Reg.as (r : Reg) (view : Scalar) : Except Error Reg :=
  if r.view.isInteger && view.isInteger then .ok ⟨view, r.slot⟩
  else .error (.misuse (.cannotView r.view r.slot view))

/-- The registers of a machine that are given out, by the names `ρ`. -/
structure RegisterFile (ρ : Type) where
  intSlots : Nat
  floatSlots : Nat
  /-- The name of a slot seen as a scalar type. -/
  name : Scalar → Nat → Option ρ
  /-- The name of the low byte of an integer slot. -/
  byteName : Nat → Option ρ

/-- How many slots hold values of a scalar type. -/
def RegisterFile.slots {ρ : Type} (file : RegisterFile ρ) (view : Scalar) : Nat :=
  if view.isInteger then file.intSlots else file.floatSlots

/-- Which slots are taken, in each view, and how often slots have been taken and given back. -/
structure Bank {ρ : Type} (file : RegisterFile ρ) where
  int : List Bool
  char : List Bool
  long : List Bool
  float : List Bool
  allocations : Nat
  frees : Nat
deriving Repr

namespace Bank

variable {ρ : Type} {file : RegisterFile ρ}

/-- The bank with every slot free. -/
def new (file : RegisterFile ρ) : Bank file where
  int := List.replicate file.intSlots false
  char := List.replicate file.intSlots false
  long := List.replicate file.intSlots false
  float := List.replicate file.floatSlots false
  allocations := 0
  frees := 0

instance : Inhabited (Bank file) := ⟨new file⟩

/-- The slots in one view, `true` for those taken. -/
def status (b : Bank file) : Scalar → List Bool
  | .int => b.int
  | .char => b.char
  | .long => b.long
  | .float => b.float

/-- Mark a slot in every view that shares it. -/
def mark (b : Bank file) (view : Scalar) (slot : Nat) (taken : Bool) : Bank file :=
  if view.isInteger then
    { b with
      int := b.int.set slot taken
      char := b.char.set slot taken
      long := b.long.set slot taken }
  else { b with float := b.float.set slot taken }

/-- Take the first free slot. -/
def allocate (b : Bank file) (view : Scalar) : Except Error (Reg × Bank file) :=
  match (b.status view).findIdx? (!·) with
  | none => .error (.noFreeRegister view)
  | some slot => .ok (⟨view, slot⟩, { b.mark view slot true with allocations := b.allocations + 1 })

/-- Whether a slot is taken; a slot that does not exist is not. -/
def isAllocated (b : Bank file) (view : Scalar) (slot : Nat) : Bool :=
  ((b.status view)[slot]?).getD false

/-- Make sure that a handle is good. -/
def check (b : Bank file) (r : Reg) : Except Error Unit :=
  if file.slots r.view ≤ r.slot then .error (.outOfRange r.view r.slot)
  else if b.isAllocated r.view r.slot then .ok ()
  else .error (.misuse (.notAllocated r.view r.slot))

/-- Give a slot back. -/
def free (b : Bank file) (r : Reg) : Except Error (Bank file) := do
  b.check r
  return { b.mark r.view r.slot false with frees := b.frees + 1 }

/-- Free every slot. The counts stay, so that what was never given back still shows. -/
def freeAll (b : Bank file) : Bank file :=
  { b with
    int := b.int.map fun _ => false
    char := b.char.map fun _ => false
    long := b.long.map fun _ => false
    float := b.float.map fun _ => false }

/-- The name of the register behind a handle. -/
def nameOf (b : Bank file) (r : Reg) : Except Error ρ := do
  b.check r
  match file.name r.view r.slot with
  | some name => return name
  | none => throw (.outOfRange r.view r.slot)

/-- The name of the low byte of the register behind a handle. -/
def byteNameOf (b : Bank file) (r : Reg) : Except Error ρ := do
  b.check r
  if r.view.isInteger then
    match file.byteName r.slot with
    | some name => return name
    | none => throw (.outOfRange r.view r.slot)
  else throw (.misuse (.noByteView r.slot))

/-- The slots taken in one view, from the lowest. -/
def live (b : Bank file) (view : Scalar) : List Reg :=
  (b.status view).zipIdx.filterMap fun (taken, slot) => if taken then some ⟨view, slot⟩ else none

/-- How many registers are taken. -/
def liveCount (b : Bank file) : Nat := (b.live .long).length + (b.live .float).length

/-- How many more times slots have been taken than given back. -/
def net (b : Bank file) : Int := b.allocations - b.frees

/-- The integer views agree, and no view has lost a slot. -/
structure Coherent (b : Bank file) : Prop where
  char_eq : b.char = b.int
  long_eq : b.long = b.int
  int_length : b.int.length = file.intSlots
  float_length : b.float.length = file.floatSlots

theorem coherent_new : (new file).Coherent := ⟨rfl, rfl, by simp [new], by simp [new]⟩

theorem Coherent.mark {b : Bank file} (h : b.Coherent) (view : Scalar) (slot : Nat)
    (taken : Bool) : (b.mark view slot taken).Coherent := by
  cases view <;> constructor <;>
    simp [Bank.mark, Scalar.isInteger, h.char_eq, h.long_eq, h.int_length, h.float_length]

theorem Coherent.allocate {b c : Bank file} {view : Scalar} {r : Reg} (h : b.Coherent)
    (e : b.allocate view = .ok (r, c)) : c.Coherent := by
  unfold Bank.allocate at e
  split at e
  · cases e
  · rename_i slot _
    cases e
    exact ⟨(h.mark view slot true).char_eq, (h.mark view slot true).long_eq,
      (h.mark view slot true).int_length, (h.mark view slot true).float_length⟩

theorem Coherent.free {b c : Bank file} {r : Reg} (h : b.Coherent) (e : b.free r = .ok c) :
    c.Coherent := by
  unfold Bank.free at e
  cases hc : b.check r with
  | error err => rw [hc] at e; cases e
  | ok _ =>
    rw [hc] at e
    cases e
    have m := h.mark r.view r.slot false
    exact ⟨m.char_eq, m.long_eq, m.int_length, m.float_length⟩

theorem Coherent.freeAll {b : Bank file} (h : b.Coherent) : b.freeAll.Coherent :=
  ⟨by simp [Bank.freeAll, h.char_eq], by simp [Bank.freeAll, h.long_eq],
    by simp [Bank.freeAll, h.int_length], by simp [Bank.freeAll, h.float_length]⟩

end Bank

end MiniC.Emit
