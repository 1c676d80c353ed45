import MiniC.Ast
import MiniC.Diagnostic

/-!
# Why a program is refused

The causes for which checking refuses a program, and their wording.
-/

set_option autoImplicit false

namespace MiniC.Typing

/-- What the language has, and this compiler does not do. -/
inductive Unsupported where
  | typeName (t : Ast.TypeName)
  | arrayResult
  | voidParameter (name : String)
  | voidVariable (name : String)
  | frameTooLarge (name : String) (type : CType)
  | cast (source target : CType)
  | addressOf (type : CType) (name : String)
  | stepOfNonVariable
  | compoundThroughPointer (op : AssignOp)
  | listForNonArray (name : String)
deriving DecidableEq, Repr

def Unsupported.text : Unsupported → String
  | typeName t => "type " ++ t.text
  | arrayResult => "functions returning arrays"
  | voidParameter name => "void parameter '" ++ name ++ "'"
  | voidVariable name => "void variable '" ++ name ++ "'"
  | frameTooLarge name type =>
    "stack frame too large for '" ++ name ++ "' of type " ++ type.text
  | cast source target => "cast from " ++ source.text ++ " to " ++ target.text
  | addressOf type name => "address of " ++ type.text ++ " '" ++ name ++ "'"
  | stepOfNonVariable => "increment or decrement of a non-variable"
  | compoundThroughPointer op => "'" ++ op.text ++ "' through a pointer"
  | listForNonArray name => "initializer list for non-array '" ++ name ++ "'"

/-- The cause of a refusal. -/
inductive Fault where
  | undefinedVariable (name : String)
  | undefinedFunction (name : String)
  | redefined (name : String)
  | typeMismatch (expected found : CType)
  | invalidOperation (operation : String) (type : CType)
  | argumentCount (name : String) (expected found : Nat)
  | returnMismatch (expected found : CType)
  | notAssignable
  | voidValue
  | notConstant (name : String)
  | tooManyInitializers (name : String) (capacity found : Nat)
  | unsupported (what : Unsupported)
deriving DecidableEq, Repr

def Fault.message : Fault → String
  | undefinedVariable name => "Undefined variable: " ++ name
  | undefinedFunction name => "Undefined function: " ++ name
  | redefined name => "Redefinition of symbol: " ++ name
  | typeMismatch expected found =>
    "Type mismatch: expected " ++ expected.text ++ ", found " ++ found.text
  | invalidOperation operation type =>
    "Invalid operation " ++ operation ++ " on type " ++ type.text
  | argumentCount name expected found =>
    "Function " ++ name ++ ": expected " ++ toString expected ++ " arguments, found " ++
      toString found
  | returnMismatch expected found =>
    "Return type mismatch: expected " ++ expected.text ++ ", found " ++ found.text
  | notAssignable => "Invalid lvalue in assignment"
  | voidValue => "Void value used in an expression"
  | notConstant name => "Initializer of '" ++ name ++ "' is not a constant"
  | tooManyInitializers name capacity found =>
    "Too many initializers for '" ++ name ++ "': " ++ toString found ++ " for " ++
      toString capacity ++ " element(s)"
  | unsupported what => "Unsupported: " ++ what.text

/-- A refusal: its cause and the range of source it concerns. -/
structure Error where
  fault : Fault
  span : Span
deriving DecidableEq, Repr

def Error.diagnostic (e : Error) : Diagnostic := .semantic e.span e.fault.message

/-- Refuse the program over something it does at `span`. -/
def refuse {α : Type} (fault : Fault) (span : Span) : Except Error α := .error ⟨fault, span⟩

end MiniC.Typing

namespace MiniC.Ast

/-- The type that a written type stands for: there are no pointers to pointers or to `void`, and no
arrays of pointers or of `void`. -/
def TypeName.resolve? (t : TypeName) : Option CType :=
  let shape (s : Scalar) : Option CType :=
    match t.pointerDepth, t.arrayLength with
    | 0, none => some (.scalar s)
    | 0, some n => some (.array s n)
    | 1, none => some (.pointer s)
    | _, _ => none
  match t.base with
  | .void => if t.pointerDepth = 0 ∧ t.arrayLength = none then some .void else none
  | .char => shape .char
  | .int => shape .int
  | .long => shape .long
  | .float => shape .float

/-- The type that a written type at `span` stands for. -/
def TypeName.resolve (t : TypeName) (span : Span) : Except Typing.Error CType :=
  match t.resolve? with
  | some type => .ok type
  | none => Typing.refuse (.unsupported (.typeName t)) span

end MiniC.Ast
