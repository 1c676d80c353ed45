import MiniC.Value
import Mathlib

/-!
# Ranges of types

The values of an integer type are the numbers of a range, and an operation cuts its result to the range
of its type (`wrap`). Addresses are numbers like those of a `long`, and an array stands for its address.
-/

set_option autoImplicit false

namespace MiniC

/-- A number cut to the range of a scalar type: a `char` is unsigned, the others are signed. -/
def Scalar.wrap : Scalar → Int → Int
  | .char, n => n % 2 ^ 8
  | .int, n => n.bmod (2 ^ 32)
  | .long, n => n.bmod (2 ^ 64)
  | .float, n => n

/-- The scalar type as which values of a type are held: an address is a number like a `long`. -/
def CType.word : CType → Scalar
  | .scalar s => s
  | _ => .long

/-- A number cut to the range of a type. -/
def CType.wrap (type : CType) (n : Int) : Int := type.word.wrap n

namespace Scalar

theorem wrap_wrap (s : Scalar) (n : Int) : s.wrap (s.wrap n) = s.wrap n := by
  cases s with
  | char => exact Int.emod_emod n (2 ^ 8)
  | int => exact Int.bmod_bmod
  | long => exact Int.bmod_bmod
  | float => rfl

theorem wrap_long_of_bounds {n : Int} (hlo : -2 ^ 63 ≤ n) (hhi : n < 2 ^ 63) :
    Scalar.long.wrap n = n :=
  Int.bmod_eq_of_le (by omega) (by omega)

theorem wrap_long_toInt (x : BitVec 64) : Scalar.long.wrap x.toInt = x.toInt := by
  have hlo := BitVec.le_toInt x
  have hhi := BitVec.toInt_lt (x := x)
  exact wrap_long_of_bounds (by simpa using hlo) (by simpa using hhi)

/-- Every integer type has a part of the range of a `long`. -/
theorem wrap_long_of_wrap {s : Scalar} {n : Int} (hs : s.isInteger = true) (h : s.wrap n = n) :
    Scalar.long.wrap n = n := by
  cases s with
  | char =>
    have hchar : n % 2 ^ 8 = n := h
    exact wrap_long_of_bounds (by omega) (by omega)
  | int =>
    have hint : n.bmod (2 ^ 32) = n := h
    have hlo := Int.le_bmod (x := n) (m := 2 ^ 32) (by decide)
    have hhi := Int.bmod_lt (x := n) (m := 2 ^ 32) (by decide)
    exact wrap_long_of_bounds (by omega) (by omega)
  | long => exact h
  | float => cases hs

end Scalar

namespace CType

@[simp] theorem word_decay (type : CType) : type.decay.word = type.word := by
  cases type <;> rfl

@[simp] theorem wrap_decay (type : CType) (n : Int) : type.decay.wrap n = type.wrap n := by
  cases type <;> rfl

@[simp] theorem wrap_wrap (type : CType) (n : Int) : type.wrap (type.wrap n) = type.wrap n :=
  Scalar.wrap_wrap _ n

end CType

theorem Value.type_convert? {v w : Value} {s : Scalar} (h : v.convert? s = some w) : w.type = .scalar s := by
  cases v <;> cases s <;> cases h <;> rfl

end MiniC
