/-!
# Labels of control flow

A branching construct takes a number of its own kind and names its labels after kind, number and
role, such as `.Lwhile3_end`. Every function has one more label, where its `return`s meet.
-/

set_option autoImplicit false

namespace MiniC

/-- How many numbers of each kind have been given out. A kind that is not listed has given out
none. -/
structure LabelCounter where
  counts : List (String × Nat) := []
deriving Repr, Inhabited

namespace LabelCounter

/-- The number that the next construct of a kind takes. -/
def peek (c : LabelCounter) (kind : String) : Nat :=
  (c.counts.lookup kind).getD 0

/-- Raise the count of a kind by one. -/
def bump (kind : String) : List (String × Nat) → List (String × Nat)
  | [] => [(kind, 1)]
  | (k, n) :: rest => if k = kind then (k, n + 1) :: rest else (k, n) :: bump kind rest

/-- Give out a number: for each kind they run `0, 1, 2, …`. -/
def next (c : LabelCounter) (kind : String) : Nat × LabelCounter :=
  (c.peek kind, ⟨bump kind c.counts⟩)

end LabelCounter

/-- The label of a construct for one of its roles. -/
def controlLabel (kind : String) (id : Nat) (role : String) : String :=
  ".L" ++ kind ++ toString id ++ "_" ++ role

/-- Where the `return`s of a function meet. -/
def returnLabel (function : String) : String :=
  ".L" ++ function ++ "_return"

end MiniC
