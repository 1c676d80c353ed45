/-!
# Floating-point numbers as `m · 2 ^ q`

The exact value of a finite `Float`, read off its 64 bits: eleven bits of exponent and fifty-two of
fraction, below which every number is a whole multiple of `2 ^ -1074`. Truncation to an integer and
the choice of decimal digits (`MiniC.Number.Shortest`) both work on this value, in exact arithmetic.
-/

set_option autoImplicit false

namespace MiniC.Number

/-- A finite number `± mantissa · 2 ^ exponent`. -/
structure Binary64 where
  negative : Bool
  mantissa : Nat
  exponent : Int
deriving DecidableEq, Repr

namespace Binary64

/-- The exponent field of the bits. -/
def exponentField (bits : UInt64) : Nat := bits.toNat / Nat.pow 2 52 % Nat.pow 2 11

/-- The fraction field of the bits. -/
def fractionField (bits : UInt64) : Nat := bits.toNat % Nat.pow 2 52

/-- The exact value of a float, or `none` for infinities and NaN, whose exponent field is all ones.
A zero exponent field marks a number without the implicit leading bit. -/
def ofFloat? (x : Float) : Option Binary64 :=
  let bits := x.toBits
  let negative := decide (0x8000000000000000 ≤ bits.toNat)
  match exponentField bits with
  | 0 => some ⟨negative, fractionField bits, -1074⟩
  | e + 1 =>
    if e + 1 = 2047 then none
    else some ⟨negative, Nat.pow 2 52 + fractionField bits, (e : Int) - 1074⟩

/-- The value without its fraction part, toward zero. -/
def truncate (b : Binary64) : Int :=
  let magnitude :=
    match b.exponent with
    | .ofNat e => b.mantissa * Nat.pow 2 e
    | .negSucc e => b.mantissa / Nat.pow 2 (e + 1)
  if b.negative then -(magnitude : Int) else magnitude

end Binary64

/-- Clamp an integer to a closed range. -/
def clamp (least most n : Int) : Int :=
  if n < least then least else if most < n then most else n

/-- A float without its fraction part, clamped to a closed range; NaN counts as zero. -/
def truncateWithin (least most : Int) (x : Float) : Int :=
  match Binary64.ofFloat? x with
  | some b => clamp least most b.truncate
  | none =>
    if x.isNaN then 0
    else if 0x8000000000000000 ≤ x.toBits.toNat then least
    else most

/-- Conversion to 64 bits: toward zero, clamped to the range of the type. -/
def toInt64 (x : Float) : Int64 :=
  Int64.ofInt (truncateWithin (-0x8000000000000000) 0x7fffffffffffffff x)

/-- Conversion to 32 bits: toward zero, clamped to the range of the type. -/
def toInt32 (x : Float) : Int32 :=
  Int32.ofInt (truncateWithin (-0x80000000) 0x7fffffff x)

/-- The float nearest to an integer. -/
def ofInt64 (n : Int64) : Float := Float.ofInt n.toInt

end MiniC.Number
