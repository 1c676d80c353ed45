import MiniC.Ast.Parser.Program
import MiniC.Lower.Program
import MiniC.Typing.Program

/-!
# Compiling

From source text to an assembly file: reading, checking and generating, with the first failure as
the answer.
-/

set_option autoImplicit false

namespace MiniC

/-- Generate the assembly file of a program with types. -/
def generate (setting : Emit.Setting) (p : Typed.Program) : Except Diagnostic String :=
  (Lower.generate setting p).mapError Lower.Failure.diagnostic

/-- Check a program and generate its assembly file. -/
def compileProgram (setting : Emit.Setting) (p : Ast.Program) : Except Diagnostic String := do
  let typed ← (Typing.check p).mapError Typing.Error.diagnostic
  generate setting typed

/-- Compile a source text. Its constants are added to those of `pool`. -/
def compile (source file : String) (strict : Bool := true) (pool : Pool := {}) :
    Except Diagnostic String := do
  let (parsed, pool) := parse source file pool
  compileProgram ⟨pool, strict⟩ (← parsed)

end MiniC
