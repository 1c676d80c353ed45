/-!
# Places and ranges in source text

A `Location` is a line and a column of a named file, both counted from one; columns count
characters, not bytes. A `Span` is the half-open range between two locations. Order and `extend`
look at line and column only: spans of one compilation all come from one file, and a location
that belongs to no file still has a place in the order.
-/

set_option autoImplicit false

namespace MiniC

/-- A place in a source file. -/
structure Location where
  file : String
  line : Nat
  column : Nat
deriving DecidableEq, Repr, Inhabited

namespace Location

/-- Where reading a file begins. -/
def first (file : String) : Location := ⟨file, 1, 1⟩

/-- The place of whatever was not read from a file. -/
def unknown : Location := ⟨"<unknown>", 0, 0⟩

/-- `a ≤ b`: `a` does not come after `b` in reading order. -/
instance : LE Location where
  le a b := a.line < b.line ∨ a.line = b.line ∧ a.column ≤ b.column

instance (a b : Location) : Decidable (a ≤ b) :=
  inferInstanceAs (Decidable (a.line < b.line ∨ a.line = b.line ∧ a.column ≤ b.column))

/-- The place after the character `c` read at `l`: a line feed starts the next line, everything
else, a tab or another kind of line separator included, takes one column. -/
def advance (l : Location) (c : Char) : Location :=
  if c = '\n' then { l with line := l.line + 1, column := 1 }
  else { l with column := l.column + 1 }

/-- The place after a run of characters. -/
def advanceBy (l : Location) (cs : List Char) : Location :=
  cs.foldl advance l

@[simp] theorem advanceBy_nil (l : Location) : l.advanceBy [] = l := rfl

@[simp] theorem advanceBy_cons (l : Location) (c : Char) (cs : List Char) :
    l.advanceBy (c :: cs) = (l.advance c).advanceBy cs := rfl

theorem advanceBy_append (l : Location) (cs ds : List Char) :
    l.advanceBy (cs ++ ds) = (l.advanceBy cs).advanceBy ds :=
  List.foldl_append

/-- `file:line:column` -/
def text (l : Location) : String :=
  l.file ++ ":" ++ toString l.line ++ ":" ++ toString l.column

end Location

/-- A half-open range of source text. -/
structure Span where
  start : Location
  stop : Location
deriving DecidableEq, Repr, Inhabited

namespace Span

/-- The empty range at a place. -/
def point (l : Location) : Span := ⟨l, l⟩

/-- The range of whatever was not read from a file. -/
def unknown : Span := point Location.unknown

/-- The least range that covers both; where they agree on an end, the first one's is kept. -/
def extend (a b : Span) : Span where
  start := if a.start ≤ b.start then a.start else b.start
  stop := if b.stop ≤ a.stop then a.stop else b.stop

/-- An empty range is written as its location, a range within one line as `file:line:from-to`,
and any other as `file:line:column-line:column`. -/
def text (s : Span) : String :=
  if s.start.line = s.stop.line then
    if s.start.column = s.stop.column then s.start.text
    else s.start.text ++ "-" ++ toString s.stop.column
  else s.start.text ++ "-" ++ toString s.stop.line ++ ":" ++ toString s.stop.column

end Span

end MiniC
