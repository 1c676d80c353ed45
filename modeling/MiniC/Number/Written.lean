import MiniC.Number.Shortest

/-!
# Floats as text

How a float is written once its digits are known: with the point in its place when the number is
of moderate size, and with an exponent otherwise. The bounds, the sign of the exponent, and what is
done when two decimals are equally near differ between the places that print floats, so they are a
`FloatStyle`; the rest is common.
-/

set_option autoImplicit false

namespace MiniC.Number

/-- The decisions of a float format. A number whose first digit stands `p` places left of the point
(`p = 1` for `5.0`, `p = 0` for `0.5`) is written positionally when `leastPoint ≤ p ≤ mostPoint`. -/
structure FloatStyle where
  leastPoint : Int
  mostPoint : Int
  tie : Tie
  /-- Whether an exponent that is not negative has a plus sign. -/
  plusSign : Bool
  infinity : String
  negativeInfinity : String
  nan : String

/-- Diagnostics and listings: positional from `0.0001` up to, not including, ten to the sixteenth. -/
def FloatStyle.listing : FloatStyle where
  leastPoint := -3
  mostPoint := 16
  tie := .larger
  plusSign := false
  infinity := "inf"
  negativeInfinity := "-inf"
  nan := "NaN"

/-- JSON numbers: positional from `0.00001`; what JSON cannot express as a number is `null`. -/
def FloatStyle.json : FloatStyle where
  leastPoint := -4
  mostPoint := 16
  tie := .even
  plusSign := true
  infinity := "null"
  negativeInfinity := "null"
  nan := "null"

/-- Digits with the point in place, and at least one digit on either side of it. -/
def positional (digits : List Char) (point : Int) : List Char :=
  match point with
  | .negSucc zeros => ['0', '.'] ++ List.replicate (zeros + 1) '0' ++ digits
  | .ofNat 0 => ['0', '.'] ++ digits
  | .ofNat whole =>
    if digits.length ≤ whole then
      digits ++ List.replicate (whole - digits.length) '0' ++ ['.', '0']
    else digits.take whole ++ ['.'] ++ digits.drop whole

/-- The power of ten of a number in scientific form. -/
def FloatStyle.exponent (style : FloatStyle) (power : Int) : List Char :=
  let digits := (toString power).toList
  if style.plusSign ∧ 0 ≤ power then 'e' :: '+' :: digits else 'e' :: digits

/-- Digits with the point after the first one, and the power of ten. -/
def FloatStyle.scientific (style : FloatStyle) (digits : List Char) (point : Int) : List Char :=
  let exponent := style.exponent (point - 1)
  match digits with
  | [] => exponent
  | [d] => d :: exponent
  | d :: ds => [d, '.'] ++ ds ++ exponent

/-- The text of a float: the fewest digits that read back to it. Zero keeps its sign. -/
def FloatStyle.write (style : FloatStyle) (x : Float) : String :=
  match Binary64.ofFloat? x with
  | none =>
    if x.isNaN then style.nan
    else if 0x8000000000000000 ≤ x.toBits.toNat then style.negativeInfinity
    else style.infinity
  | some b =>
    let magnitude :=
      if b.mantissa = 0 then ['0', '.', '0']
      else
        let decimal := shortest b style.tie
        let digits := Nat.toDigits 10 decimal.digits
        let point := decimal.exponent + digits.length
        if style.leastPoint ≤ point ∧ point ≤ style.mostPoint then positional digits point
        else style.scientific digits point
    String.ofList (if b.negative then '-' :: magnitude else magnitude)

end MiniC.Number
