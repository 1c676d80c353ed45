import MiniC.Number.Binary64

/-!
# The fewest decimal digits that read back

A float stands for every real number that rounds to it: the interval between the midpoints to its
two neighbours, ends included when the mantissa is even. `shortest` gives the decimal with the
fewest digits inside that interval and, among those, the one nearest to the float; which of two
equally near ones is taken is a choice of the caller's, `Tie`.

Everything is counted in natural numbers. With `scale` chosen so that no power is negative, the
number is `value / unit` and the ends of its interval are `low / unit` and `high / unit`.
-/

set_option autoImplicit false

namespace MiniC.Number

/-- Which of two decimals that lie equally near is taken. -/
inductive Tie where
  | larger
  | even
deriving DecidableEq, Repr

/-- Whether a number exactly between `below` and `below + 1` is rounded down. -/
def Tie.takesBelow (tie : Tie) (below : Nat) : Bool :=
  match tie with
  | larger => false
  | even => below % 2 == 0

/-- A decimal `digits · 10 ^ exponent`. -/
structure Decimal where
  digits : Nat
  exponent : Int
deriving DecidableEq, Repr

/-- A positive number as a fraction, with the interval of the reals that round to it. -/
structure Interval where
  low : Nat
  value : Nat
  high : Nat
  unit : Nat
  /-- Whether the ends belong to the interval. -/
  closed : Bool
deriving Repr

namespace Interval

/-- The interval of `mantissa · 2 ^ exponent`. In quarters of the last place the midpoints are two
away, except below a power of two, where the next smaller number is only half as far. -/
def ofBinary64 (b : Binary64) : Interval :=
  let below := if b.mantissa = Nat.pow 2 52 ∧ b.exponent ≠ -1074 then 1 else 2
  let up := (b.exponent - 2).toNat
  let down := (2 - b.exponent).toNat
  { low := (4 * b.mantissa - below) * Nat.pow 2 up
    value := 4 * b.mantissa * Nat.pow 2 up
    high := (4 * b.mantissa + 2) * Nat.pow 2 up
    unit := Nat.pow 2 down
    closed := b.mantissa % 2 == 0 }

/-- The same interval counted in multiples of `10 ^ k`. -/
def rescale (i : Interval) (k : Int) : Interval :=
  let up := Nat.pow 10 (-k).toNat
  { i with
    low := i.low * up
    value := i.value * up
    high := i.high * up
    unit := i.unit * Nat.pow 10 k.toNat }

/-- How many digits stand before the decimal point: the `p` with `10 ^ (p - 1) ≤ value < 10 ^ p`. -/
def pointPosition (i : Interval) : Int :=
  let digitCount (n : Nat) : Nat := (Nat.toDigits 10 n).length
  if i.unit ≤ i.value then digitCount (i.value / i.unit)
  else 1 - (digitCount ((i.unit - 1) / i.value) : Int)

/-- The whole number nearest to the value of those inside the interval, if there is one. Only the
two neighbours of the value need a look: they are inside as soon as any whole number is. -/
def nearestWhole? (i : Interval) (tie : Tie) : Option Nat :=
  let below := i.value / i.unit
  let above := below + 1
  let hasBelow := if i.closed then i.low ≤ below * i.unit else i.low < below * i.unit
  let hasAbove := if i.closed then above * i.unit ≤ i.high else above * i.unit < i.high
  let middle := (2 * below + 1) * i.unit
  let takesBelow := 2 * i.value < middle ∨ (2 * i.value = middle ∧ tie.takesBelow below)
  match decide hasBelow, decide hasAbove with
  | true, true => some (if takesBelow then below else above)
  | true, false => some below
  | false, true => some above
  | false, false => none

end Interval

/-- Move trailing zeros of the digits into the exponent. A number has no more zeros than digits,
which bounds the recursion. -/
def Decimal.trim (d : Decimal) : Decimal :=
  let rec go : Nat → Nat → Int → Decimal
    | 0, digits, exponent => ⟨digits, exponent⟩
    | fuel + 1, digits, exponent =>
      if digits ≠ 0 ∧ digits % 10 = 0 then go fuel (digits / 10) (exponent + 1)
      else ⟨digits, exponent⟩
  go (Nat.toDigits 10 d.digits).length d.digits d.exponent

/-- The shortest decimal that reads back as `b`, which must not be zero. Seventeen digits always
suffice. -/
def shortest (b : Binary64) (tie : Tie) : Decimal :=
  let interval := Interval.ofBinary64 b
  let point := interval.pointPosition
  let attempt (count : Nat) : Option Decimal :=
    let k := point - count
    ((interval.rescale k).nearestWhole? tie).map fun digits => (Decimal.mk digits k).trim
  ((List.range 17).findSome? fun n => attempt (n + 1)).getD ⟨0, 0⟩

end MiniC.Number
