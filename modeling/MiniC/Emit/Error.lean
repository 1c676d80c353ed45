import MiniC.Operator
import MiniC.Value
import MiniC.X86.Listing

/-!
# Why code cannot be generated

The causes for which generation gives up, and their wording. A checked program can only run out of
registers, pass more arguments than there are argument registers, or print an array of `long`; the
other causes answer a wrong use of the generator.
-/

set_option autoImplicit false

namespace MiniC.Emit

/-- A use of registers, constants or storage that has no meaning. -/
inductive Misuse where
  | notAllocated (view : Scalar) (slot : Nat)
  | cannotView (view : Scalar) (slot : Nat) (other : Scalar)
  | noByteView (slot : Nat)
  | floatNotPooled (x : Float)
  | stringNotPooled (s : String)
  | notInData (symbol : Symbol)
  | pastEnd (index : Nat) (name : String) (length : Nat)
  | stillLive (count : Nat) (scope : String)
  | stillPushed (bytes : Nat) (function : String)
  | argumentsNotPushed (function : String) (count : Nat)
  | voidValue (function : String)
deriving Repr

/-- The address of an object as diagnostics show it. -/
def addressText (a : Address) : String := (X86.Mem.within a 0).text

def Misuse.text : Misuse → String
  | notAllocated view slot => view.text ++ " register " ++ toString slot ++ " is not allocated"
  | cannotView view slot other =>
    "cannot view " ++ view.text ++ " register " ++ toString slot ++ " as " ++ other.text
  | noByteView slot => "float register " ++ toString slot ++ " has no byte alias"
  | floatNotPooled x => "float " ++ Number.FloatStyle.listing.write x ++ " was never pooled"
  | stringNotPooled s => "string " ++ Text.quoteString s ++ " was never pooled"
  | notInData symbol =>
    symbol.name ++ " lives at " ++ addressText symbol.address ++
      " and has no data-section storage"
  | pastEnd index name length =>
    "element " ++ toString index ++ " is past the end of " ++ name ++ "[" ++ toString length ++ "]"
  | stillLive count scope =>
    toString count ++ " register(s) still live at the end of " ++ scope
  | stillPushed bytes function =>
    toString bytes ++ " byte(s) still pushed at the end of " ++ function
  | argumentsNotPushed function count =>
    "call to " ++ function ++ " expects " ++ toString count ++ " pushed argument(s)"
  | voidValue function => "void result of '" ++ function ++ "' used as a value"

/-- What the generator has no code for. -/
inductive Unsupported where
  | floatOperands (op : ArithOp)
  /-- The argument registers of a kind are used up; arguments are counted from zero. -/
  | argument (index : Nat) (view : Scalar)
  | frameTooLarge (bytes : Nat) (function : String)
  | elementTooFar (index : Nat) (name : String)
  | tooManyInitializers (count : Nat) (name : String) (capacity : Nat)
  | initializer (slot : CType) (value : Value)
  | notArithmetic (op : BinaryOp)
  | notLogical (op : BinaryOp)
  | notValue (op : UnaryOp)
deriving Repr

def Unsupported.text : Unsupported → String
  | floatOperands op => op.name ++ " on float operands"
  | argument index view =>
    "argument " ++ toString (index + 1) ++ " does not fit in a " ++ view.text ++
      " argument register"
  | frameTooLarge bytes function =>
    toString bytes ++ " byte frame of " ++ function ++ " exceeds a 32-bit displacement"
  | elementTooFar index name =>
    "element " ++ toString index ++ " of " ++ name ++ " is beyond a 32-bit displacement"
  | tooManyInitializers count name capacity =>
    toString count ++ " initializers for " ++ name ++ " of " ++ toString capacity ++ " element(s)"
  | initializer slot value => "cannot initialize " ++ slot.text ++ " with " ++ value.text
  | notArithmetic op => "'" ++ op.text ++ "' is not arithmetic"
  | notLogical op => "'" ++ op.text ++ "' is not logical"
  | notValue op => "unary '" ++ op.text ++ "' in a value"

/-- The cause of a failure. -/
inductive Error where
  /-- Values are never moved out of registers to make room. -/
  | noFreeRegister (view : Scalar)
  | misuse (what : Misuse)
  | outOfRange (view : Scalar) (slot : Nat)
  | typeMismatch (operation : String) (left right : Scalar)
  | unsupportedType (operation : String) (type : CType)
  | unsupported (what : Unsupported)
deriving Repr

def Error.message : Error → String
  | noFreeRegister view => "no free " ++ view.text ++ " register (no spilling)"
  | misuse what => "invalid register usage: " ++ what.text
  | outOfRange view slot =>
    "register slot " ++ toString slot ++ " out of range for class " ++ view.text
  | typeMismatch operation left right =>
    "type mismatch in " ++ operation ++ ": " ++ left.text ++ " and " ++ right.text
  | unsupportedType operation type =>
    "unsupported type " ++ type.text ++ " for " ++ operation
  | unsupported what => "unsupported operation: " ++ what.text

end MiniC.Emit
