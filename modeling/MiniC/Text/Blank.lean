/-!
# Blank characters

The characters that may separate two tokens: those with the Unicode property `White_Space`,
which reach beyond ASCII (a no-break space counts, a zero-width space does not).
-/

set_option autoImplicit false

namespace MiniC.Text

/-- The code points with the property `White_Space`. -/
def blanks : List Nat :=
  [0x9, 0xa, 0xb, 0xc, 0xd, 0x20, 0x85, 0xa0, 0x1680, 0x2000, 0x2001, 0x2002, 0x2003, 0x2004,
    0x2005, 0x2006, 0x2007, 0x2008, 0x2009, 0x200a, 0x2028, 0x2029, 0x202f, 0x205f, 0x3000]

/-- Whether a character separates tokens and is otherwise skipped. -/
def isBlank (c : Char) : Bool := blanks.contains c.toNat

end MiniC.Text
