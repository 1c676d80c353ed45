/-!
# Types

The language has four scalar types, pointers to scalars and one-dimensional arrays of scalars.
Nothing nests further: there are no pointers to pointers and no arrays of arrays.
-/

set_option autoImplicit false

namespace MiniC

/-- A type of numbers. `float` is a 64-bit floating-point number, the others are integers of one
(unsigned), four and eight bytes (signed). -/
inductive Scalar where
  | char
  | int
  | long
  | float
deriving DecidableEq, Repr, Inhabited

namespace Scalar

/-- Storage in bytes. -/
def size : Scalar → Nat
  | char => 1
  | int => 4
  | long => 8
  | float => 8

def isInteger : Scalar → Bool
  | float => false
  | _ => true

/-- The place of a type in the order of conversion: an operation on two types is done in the one of
higher rank. -/
def rank : Scalar → Nat
  | char => 0
  | int => 1
  | long => 2
  | float => 3

/-- The scalar of higher rank. -/
def max (a b : Scalar) : Scalar := if a.rank < b.rank then b else a

/-- The type in which a binary operation is done: the operand type of higher rank, and no narrower
than `int`. -/
def common (a b : Scalar) : Scalar := (a.max b).max int

def text : Scalar → String
  | char => "char"
  | int => "int"
  | long => "long"
  | float => "float"

end Scalar

/-- The least multiple of `unit` that is no less than `n`. -/
def roundUp (n unit : Nat) : Nat := (n + unit - 1) / unit * unit

/-- The type of an object, an expression or a function result. -/
inductive CType where
  | void
  | scalar (s : Scalar)
  | pointer (element : Scalar)
  | array (element : Scalar) (length : Nat)
deriving DecidableEq, Repr, Inhabited

namespace CType

abbrev char : CType := scalar .char
abbrev int : CType := scalar .int
abbrev long : CType := scalar .long
abbrev float : CType := scalar .float

/-- Storage in bytes. -/
def size : CType → Nat
  | void => 0
  | scalar s => s.size
  | pointer _ => 8
  | array element length => element.size * length

/-- Alignment in bytes; an array is aligned like its elements. -/
def align : CType → Nat
  | void => 1
  | scalar s => s.size
  | pointer _ => 8
  | array element _ => element.size

def scalar? : CType → Option Scalar
  | scalar s => some s
  | _ => none

/-- What a pointer points to or an array holds. -/
def element? : CType → Option Scalar
  | pointer e => some e
  | array e _ => some e
  | _ => none

def isVoid : CType → Bool
  | void => true
  | _ => false

def isPointer : CType → Bool
  | pointer _ => true
  | _ => false

def isArray : CType → Bool
  | array _ _ => true
  | _ => false

def isInteger : CType → Bool
  | scalar s => s.isInteger
  | _ => false

def isFloat : CType → Bool
  | scalar .float => true
  | _ => false

/-- The type as a value: an array stands for the address of its first element. -/
def decay : CType → CType
  | array e _ => pointer e
  | t => t

def text : CType → String
  | void => "void"
  | scalar s => s.text
  | pointer e => e.text ++ "*"
  | array e n => e.text ++ "[" ++ toString n ++ "]"

end CType

end MiniC
