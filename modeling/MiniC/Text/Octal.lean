/-!
# String constants of the assembler

The assembler reads a string constant byte by byte. Quotes and backslashes are escaped, line feeds
and tabs have escapes of their own, and every other byte that is not printable ASCII is written as a
backslash and three octal digits. Three digits are always written, so a digit that follows the
escape cannot be taken for a part of it.
-/

set_option autoImplicit false

namespace MiniC.Text

/-- The octal digit of a number below eight. -/
def octalDigit (n : Nat) : Char := Char.ofNat ('0'.toNat + n)

/-- How a byte of a string constant is written. -/
def escapeByte (b : UInt8) : List Char :=
  if b = 0x22 then ['\\', '"']
  else if b = 0x5c then ['\\', '\\']
  else if b = 0x0a then ['\\', 'n']
  else if b = 0x09 then ['\\', 't']
  else if 0x20 ≤ b ∧ b ≤ 0x7e then [Char.ofNat b.toNat]
  else
    ['\\', octalDigit (b.toNat / 64), octalDigit (b.toNat / 8 % 8), octalDigit (b.toNat % 8)]

/-- How bytes are written between the quotes of a string constant. -/
def escapeBytes (bytes : List UInt8) : List Char := bytes.flatMap escapeByte

/-- How a string is written between the quotes of a string constant. -/
def escapeString (s : String) : String := String.ofList (escapeBytes s.toUTF8.data.toList)

end MiniC.Text
