import MiniC.Text.Printable

/-!
# Quoted characters and strings

Two ways to write a text inside quotes. Diagnostics show a character as it is wherever that can be
read (`quoteChar`, `quoteString`); tokens are shown in printable ASCII only (`asciiEscape`).
Both name any other character by its code point in hexadecimal.
-/

set_option autoImplicit false

namespace MiniC.Text

/-- A code point by number, in lower-case hexadecimal without leading zeros. -/
def codeEscape (c : Char) : List Char :=
  ['\\', 'u', '\x7b'] ++ Nat.toDigits 16 c.toNat ++ ['\x7d']

/-- A character of a diagnostic inside the quotes `quote`: the quote itself and the backslash are
escaped, so are the line and tab controls and the null character; all others are shown if they can
be and numbered if not. -/
def diagnosticEscape (quote c : Char) : List Char :=
  if c = '\x00' then ['\\', '0']
  else if c = '\t' then ['\\', 't']
  else if c = '\r' then ['\\', 'r']
  else if c = '\n' then ['\\', 'n']
  else if c = '\\' then ['\\', '\\']
  else if c = quote then ['\\', quote]
  else if isShown c then [c]
  else codeEscape c

/-- A character as diagnostics quote it. -/
def quoteChar (c : Char) : String :=
  String.ofList (['\''] ++ diagnosticEscape '\'' c ++ ['\''])

/-- A string as diagnostics quote it. -/
def quoteString (s : String) : String :=
  String.ofList (['"'] ++ s.toList.flatMap (diagnosticEscape '"') ++ ['"'])

/-- A character in printable ASCII: the line and tab controls, both quotes and the backslash have
escapes of their own, whichever quote surrounds them. -/
def asciiEscape (c : Char) : List Char :=
  if c = '\t' then ['\\', 't']
  else if c = '\r' then ['\\', 'r']
  else if c = '\n' then ['\\', 'n']
  else if c = '\'' then ['\\', '\'']
  else if c = '"' then ['\\', '"']
  else if c = '\\' then ['\\', '\\']
  else if 0x20 ≤ c.toNat ∧ c.toNat ≤ 0x7e then [c]
  else codeEscape c

end MiniC.Text
