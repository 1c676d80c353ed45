/-!
# Reading numbers

Digits to natural numbers, and decimal text to the nearest float. The decimal form is
`digits [. digits] [e [sign] digits]` with at least one digit before the exponent; a point may
come first or last.
-/

set_option autoImplicit false

namespace MiniC.Number

/-- Whether a character is one of `0` to `9`. -/
def isDigit (c : Char) : Bool := '0' ≤ c && c ≤ '9'

/-- Whether a character is a hexadecimal digit, in either case. -/
def isHexDigit (c : Char) : Bool :=
  isDigit c || ('a' ≤ c && c ≤ 'f') || ('A' ≤ c && c ≤ 'F')

/-- The value of a digit in any base up to sixteen. -/
def digitValue (c : Char) : Nat :=
  if isDigit c then c.toNat - '0'.toNat
  else if 'a' ≤ c && c ≤ 'f' then c.toNat - 'a'.toNat + 10
  else c.toNat - 'A'.toNat + 10

/-- The number that a run of digits stands for, the most significant first. -/
def ofDigits (base : Nat) (digits : List Char) : Nat :=
  digits.foldl (fun n c => n * base + digitValue c) 0

/-- The exponent part of a decimal: nothing, or a mark, an optional sign and digits. -/
def readExponent? : List Char → Option Int
  | [] => some 0
  | mark :: rest =>
    if mark = 'e' ∨ mark = 'E' then
      let (negative, digits) :=
        match rest with
        | '-' :: ds => (true, ds)
        | '+' :: ds => (false, ds)
        | ds => (false, ds)
      if digits ≠ [] ∧ digits.all isDigit then
        let n := ofDigits 10 digits
        some (if negative then -(n : Int) else n)
      else none
    else none

/-- The float nearest to `digits · 10 ^ exponent`. Far outside the range of floats the answer is
known without computing the power. -/
def ofDecimal (digits : Nat) (exponent : Int) : Float :=
  let size := (Nat.toDigits 10 digits).length + exponent
  if digits = 0 then 0.0
  else if 400 < size then Float.ofBits 0x7ff0000000000000
  else if size < -400 then 0.0
  else Float.ofScientific digits (exponent < 0) exponent.natAbs

/-- Read an unsigned decimal, correctly rounded; `none` if the text is not one. -/
def readDecimal? (cs : List Char) : Option Float :=
  let whole := cs.takeWhile isDigit
  let afterWhole := cs.dropWhile isDigit
  let (fraction, rest) :=
    match afterWhole with
    | '.' :: ds => (ds.takeWhile isDigit, ds.dropWhile isDigit)
    | ds => ([], ds)
  if whole = [] ∧ fraction = [] then none
  else
    (readExponent? rest).map fun exponent =>
      ofDecimal (ofDigits 10 (whole ++ fraction)) (exponent - fraction.length)

end MiniC.Number
