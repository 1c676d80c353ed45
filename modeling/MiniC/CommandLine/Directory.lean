import MiniC.CommandLine.Session

/-!
# Directories in memory

A directory that holds files under their paths, as a `Host`: paths are followed part by part from
the directory, and files are written only into folders that exist.
-/

set_option autoImplicit false

namespace MiniC.CommandLine

/-- The path of a file or folder below the directory, part by part. -/
abbrev Parts := List String

/-- The files of a directory, each under its path, and what has been printed. -/
structure Directory where
  files : List (Parts × ByteArray) := []
  printed : String := ""
deriving Inhabited

namespace Directory

/-- The content of a file. -/
def content? (d : Directory) (path : Parts) : Option ByteArray := d.files.lookup path

/-- Whether a path is a folder: the directory itself, or one that holds a file. -/
def isFolder (d : Directory) (path : Parts) : Bool :=
  path.isEmpty || d.files.any fun (p, _) => path.isPrefixOf p && path.length < p.length

/-- Follow the parts of a path from a folder, and give the path of what they name. -/
def follow (d : Directory) (here : Parts) : List String → Except FileError Parts
  | [] => .ok here
  | part :: parts =>
    if (d.content? here).isSome then .error .notDirectory
    else if !d.isFolder here then .error .notFound
    else if part = "" ∨ part = "." then d.follow here parts
    else if part = ".." then d.follow here.dropLast parts
    else d.follow (here ++ [part]) parts

/-- What a path names. Paths from the root of the system lead out of the directory. -/
def resolve (d : Directory) (path : String) : Except FileError Parts :=
  if path.startsWith "/" then .error .notFound else d.follow [] (splitPath path)

/-- Read a file as text. -/
def read (d : Directory) (path : String) : Except FileError String := do
  let place ← d.resolve path
  match d.content? place with
  | some bytes =>
    match String.fromUTF8? bytes with
    | some text => return text
    | none => throw .notText
  | none => throw (if d.isFolder place then .isDirectory else .notFound)

/-- Put a file in place of another one of its path, or at the end. -/
def put (path : Parts) (content : ByteArray) :
    List (Parts × ByteArray) → List (Parts × ByteArray)
  | [] => [(path, content)]
  | (p, c) :: rest => if p = path then (p, content) :: rest else (p, c) :: put path content rest

/-- Write a file. A path that ends in a slash can only name a folder. -/
def write (d : Directory) (path content : String) : Except FileError Directory := do
  if path.endsWith "/" then
    let _ ← d.resolve (String.ofList (path.toList.reverse.dropWhile (· == '/')).reverse)
    throw .isDirectory
  else
    let place ← d.resolve path
    if d.isFolder place then throw .isDirectory
    else return { d with files := put place content.toUTF8 d.files }

/-- The directory as a system to run sessions on. -/
def host : Host (StateM Directory) where
  read path := do return (← get).read path
  write path content := do
    match (← get).write path content with
    | .ok d =>
      set d
      return .ok ()
    | .error e => return .error e
  print text := modify fun d => { d with printed := d.printed ++ text }

end Directory

end MiniC.CommandLine
