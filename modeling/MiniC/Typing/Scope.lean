import MiniC.Symbol
import MiniC.Typing.Error

/-!
# Scopes

The objects that a name can mean at a point of the program: those of the enclosing blocks, the
innermost first, and the global ones. A block may declare again what an outer one declares, but no
name twice.
-/

set_option autoImplicit false

namespace MiniC.Typing

/-- The objects declared in one block; no two share a name. -/
abbrev Scope := List Symbol

def Scope.find? (s : Scope) (name : String) : Option Symbol :=
  List.find? (fun symbol => symbol.name == name) s

/-- The open blocks, innermost first, around the global scope. -/
structure Scopes where
  globals : Scope := []
  blocks : List Scope := []
deriving Repr, Inhabited

namespace Scopes

/-- Enter a block. -/
def push (s : Scopes) : Scopes := { s with blocks := [] :: s.blocks }

/-- Leave a block; the global scope is never left. -/
def pop (s : Scopes) : Scopes := { s with blocks := s.blocks.tail }

/-- The innermost scope. -/
def current (s : Scopes) : Scope := s.blocks.head?.getD s.globals

/-- Whether the innermost scope declares a name. -/
def declares (s : Scopes) (name : String) : Bool := (s.current.find? name).isSome

/-- The object that a name means. -/
def lookup? (s : Scopes) (name : String) : Option Symbol :=
  match s.blocks.findSome? fun block => block.find? name with
  | some symbol => some symbol
  | none => s.globals.find? name

/-- Add an object to the innermost scope. -/
def insert (s : Scopes) (symbol : Symbol) : Scopes :=
  match s.blocks with
  | [] => { s with globals := symbol :: s.globals }
  | block :: outer => { s with blocks := (symbol :: block) :: outer }

/-- Declare an object in the innermost scope. -/
def declare (s : Scopes) (symbol : Symbol) (span : Span) : Except Error Scopes :=
  if s.declares symbol.name then refuse (.redefined symbol.name) span
  else .ok (s.insert symbol)

end Scopes

/-- What is known of a function from its prototype or its definition. -/
structure Signature where
  result : CType
  parameters : List CType
  /-- Whether a body has been seen. -/
  isDefined : Bool
deriving DecidableEq, Repr, Inhabited

/-- The functions declared so far, each with its name. -/
abbrev Signatures := List (String × Signature)

namespace Signatures

def find? (s : Signatures) (name : String) : Option Signature := s.lookup name

/-- Record a signature under a name, in place of an earlier one. -/
def put (s : Signatures) (name : String) (signature : Signature) : Signatures :=
  match s with
  | [] => [(name, signature)]
  | (n, old) :: rest =>
    if n = name then (n, signature) :: rest else (n, old) :: put rest name signature

end Signatures

end MiniC.Typing
