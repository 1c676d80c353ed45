import MiniC.Number.Written

/-!
# JSON

JSON values and their text, spread over lines with two spaces for each level.
-/

set_option autoImplicit false

namespace MiniC

/-- A JSON value. The fields of a record keep their order. -/
inductive Json where
  | null
  | bool (b : Bool)
  | int (n : Int)
  | float (x : Float)
  | str (s : String)
  | list (items : List Json)
  | record (fields : List (String × Json))
deriving Repr, Inhabited

namespace Json

/-- A value under one name, as one of several alternatives is written. -/
def tagged (name : String) (value : Json) : Json := record [(name, value)]

/-- A value that may be missing. -/
def optional {α : Type} (f : α → Json) : Option α → Json
  | some a => f a
  | none => null

/-- How a character of a string is written. -/
def escapeChar (c : Char) : List Char :=
  if c = '"' then ['\\', '"']
  else if c = '\\' then ['\\', '\\']
  else if c = '\n' then ['\\', 'n']
  else if c = '\r' then ['\\', 'r']
  else if c = '\t' then ['\\', 't']
  else if c.toNat = 8 then ['\\', 'b']
  else if c.toNat = 12 then ['\\', 'f']
  else if c.toNat < 32 then
    ['\\', 'u', '0', '0', Nat.digitChar (c.toNat / 16), Nat.digitChar (c.toNat % 16)]
  else [c]

/-- A string with its quotes. -/
def quote (s : String) : String :=
  String.ofList ('"' :: s.toList.flatMap escapeChar ++ ['"'])

/-- The start of a line at a level. -/
def newline (level : Nat) : String :=
  "\n" ++ String.ofList (List.replicate (2 * level) ' ')

mutual

/-- The text of a value whose first line stands at a level. -/
def pretty (level : Nat) : Json → String
  | null => "null"
  | bool b => if b then "true" else "false"
  | int n => toString n
  | float x => Number.FloatStyle.json.write x
  | str s => quote s
  | list [] => "[]"
  | list (item :: items) =>
    "[" ++ newline (level + 1) ++ pretty (level + 1) item ++ prettyItems (level + 1) items ++
      newline level ++ "]"
  | record [] => "\x7b\x7d"
  | record ((name, value) :: fields) =>
    "\x7b" ++ newline (level + 1) ++ quote name ++ ": " ++ pretty (level + 1) value ++
      prettyFields (level + 1) fields ++ newline level ++ "\x7d"

/-- The items of a list after the first. -/
def prettyItems (level : Nat) : List Json → String
  | [] => ""
  | item :: items => "," ++ newline level ++ pretty level item ++ prettyItems level items

/-- The fields of a record after the first. -/
def prettyFields (level : Nat) : List (String × Json) → String
  | [] => ""
  | (name, value) :: fields =>
    "," ++ newline level ++ quote name ++ ": " ++ pretty level value ++ prettyFields level fields

end

/-- The text of a value. -/
def text (j : Json) : String := j.pretty 0

end Json

end MiniC
