import MiniC.CType

/-!
# Named objects and functions

What the checker knows of a name and the code generator needs: the type of an object and where it
lives, and the shape of a function with the stack it reserves.
-/

set_option autoImplicit false

namespace MiniC

/-- Where an object is stored. -/
inductive Address where
  /-- At a label of the data section. -/
  | label (name : String)
  /-- In the running function's frame, a number of bytes from the frame pointer. -/
  | frame (offset : Int)
deriving DecidableEq, Repr, Inhabited

/-- A named object. -/
structure Symbol where
  name : String
  type : CType
  address : Address
deriving DecidableEq, Repr, Inhabited

namespace Symbol

/-- An object of the data section, labelled with its own name. -/
def inData (name : String) (type : CType) : Symbol := ⟨name, type, .label name⟩

/-- An object of the running function's frame. -/
def onFrame (name : String) (type : CType) (offset : Int) : Symbol := ⟨name, type, .frame offset⟩

def isGlobal (s : Symbol) : Bool :=
  match s.address with
  | .label _ => true
  | .frame _ => false

end Symbol

/-- A function as its callers and its own linkage see it. -/
structure Routine where
  name : String
  result : CType
  parameters : List CType
  /-- Bytes reserved for its objects, a multiple of sixteen. -/
  frameSize : Nat
deriving DecidableEq, Repr, Inhabited

end MiniC
