import MiniC.Location

/-!
# Diagnostics

Why a compilation ended without output: the stage that gave up, the place in the source, and a
message. Checking faults cover a range of the source, the others a single place.
-/

set_option autoImplicit false

namespace MiniC

/-- A reported failure. -/
inductive Diagnostic where
  | lexical (place : Location) (message : String)
  | parsing (place : Location) (message : String)
  | semantic (place : Span) (message : String)
  | codegen (place : Location) (message : String)
  | io (message : String)
  | internal (message : String)
  /-- Arithmetic on a count overflowed. The compiler stops there and says nothing of the source. -/
  | overflow
deriving DecidableEq, Repr, Inhabited

namespace Diagnostic

/-- The name of the stage that failed. -/
def stage : Diagnostic → String
  | lexical .. => "lexer"
  | parsing .. => "parser"
  | semantic .. => "semantic analysis"
  | codegen .. => "code generation"
  | io .. => "io"
  | internal .. => "internal"
  | overflow => "arithmetic"

/-- The line shown to the user. -/
def text : Diagnostic → String
  | lexical place message => "Lexical error at " ++ place.text ++ ": " ++ message
  | parsing place message => "Parse error at " ++ place.text ++ ": " ++ message
  | semantic place message => "Semantic error at " ++ place.text ++ ": " ++ message
  | codegen place message => "Code generation error at " ++ place.text ++ ": " ++ message
  | io message => "IO error: " ++ message
  | internal message => "Internal compiler error: " ++ message
  | overflow => "attempt to add with overflow"

end Diagnostic

end MiniC
