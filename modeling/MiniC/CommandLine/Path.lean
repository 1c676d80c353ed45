/-!
# Paths

The parts of a file's path that the command line works with.
-/

set_option autoImplicit false

namespace MiniC.CommandLine

/-- The parts of a path between slashes, in order. -/
def splitPath (path : String) : List String := path.splitOn "/"

/-- Split a word at the last character that satisfies `p`, which is dropped. -/
def splitAtLast (p : Char → Bool) (cs : List Char) : Option (List Char × List Char) :=
  let reversed := cs.reverse
  match reversed.dropWhile (!p ·) with
  | [] => none
  | _ :: before => some (before.reverse, (reversed.takeWhile (!p ·)).reverse)

/-- A file name without its extension. A name that only starts with a dot has none. -/
def stem (name : List Char) : List Char :=
  match splitAtLast (· == '.') name with
  | none => name
  | some ([], _) => name
  | some (before, _) => before

/-- The path up to its last part that names a file: slashes and single dots at the end do not
count. The letters come in reverse. -/
def dropTail : List Char → List Char
  | '/' :: cs => dropTail cs
  | '.' :: '/' :: cs => dropTail cs
  | cs => cs

/-- The path with the extension of its file replaced. A path that names no file stays as it is. -/
def withExtension (path extension : String) : String :=
  let kept := (dropTail path.toList.reverse).reverse
  let (folder, name) :=
    match splitAtLast (· == '/') kept with
    | none => ([], kept)
    | some (folder, name) => (folder ++ ['/'], name)
  if name = [] ∨ name = ['.'] ∨ name = ['.', '.'] then path
  else String.ofList (folder ++ stem name) ++ "." ++ extension

end MiniC.CommandLine
