import MiniC.CType
import MiniC.Number.Written
import MiniC.Text.Quoted

/-!
# Constants

A `Value` is a constant of the language with its type; a `Constant` is what a global object is
initialized with, one value or a list that may nest.
-/

set_option autoImplicit false

namespace MiniC

/-- A constant: a number of one of the scalar types, or a string, which has the type of a pointer to
its first character. -/
inductive Value where
  | int (v : Int32)
  | char (v : UInt8)
  | long (v : Int64)
  | float (v : Float)
  | str (s : String)
deriving Repr, Inhabited

namespace Value

def type : Value → CType
  | int _ => .int
  | char _ => .char
  | long _ => .long
  | float _ => .float
  | str _ => .pointer .char

/-- The value of an integer constant, widened. -/
def integer? : Value → Option Int64
  | int v => some v.toInt64
  | char v => some (Int64.ofNat v.toNat)
  | long v => some v
  | float _ => none
  | str _ => none

/-- The integer `n` as a constant of a scalar type; what does not fit is cut to the low bits. -/
def ofInteger (n : Int64) : Scalar → Value
  | .char => char (UInt8.ofInt n.toInt)
  | .int => int n.toInt32
  | .long => long n
  | .float => float (Number.ofInt64 n)

/-- A float as a constant of a scalar type: the fraction is dropped, and what is out of range is
clamped, for `char` to the range of `long` before the low byte is taken. -/
def ofFloat (x : Float) : Scalar → Value
  | .char => char (UInt8.ofInt (Number.toInt64 x).toInt)
  | .int => int (Number.toInt32 x)
  | .long => long (Number.toInt64 x)
  | .float => float x

/-- The constant converted to a scalar type; a string cannot be. -/
def convert? (v : Value) (target : Scalar) : Option Value :=
  match v with
  | float x => some (ofFloat x target)
  | v => v.integer?.map fun n => ofInteger n target

/-- The negated number. Negating the least `int` or `long` gives itself, and a negated `char` is
an `int`. -/
def negate? : Value → Option Value
  | int v => some (int (-v))
  | char v => some (int (-Int32.ofNat v.toNat))
  | long v => some (long (-v))
  | float v => some (float (-v))
  | str _ => none

/-- The constant as diagnostics show it. -/
def text : Value → String
  | int v => toString v.toInt
  | char v => toString v.toNat
  | long v => toString v.toInt
  | float v => Number.FloatStyle.listing.write v
  | str s => Text.quoteString s

/-- The characters of a string in memory: its UTF-8 bytes and a null byte. -/
def ofStringBytes (s : String) : List Value :=
  s.toUTF8.data.toList.map char ++ [char 0]

end Value

/-- The constant initializer of a global object. -/
inductive Constant where
  | value (v : Value)
  | list (items : List Constant)
deriving Repr, Inhabited

namespace Constant

mutual

/-- The values of a nested initializer in the order they are written. -/
def flatten : Constant → List Value
  | value v => [v]
  | list items => flattenAll items

/-- The values of a list of initializers, one after the other. -/
def flattenAll : List Constant → List Value
  | [] => []
  | item :: items => item.flatten ++ flattenAll items

end

end Constant

end MiniC
