import MiniC.Emit.Storage
import MiniC.Lower.Stmt

/-!
# Code of programs

A program becomes one assembly file: the constants, the global objects, and the functions in their
order.
-/

set_option autoImplicit false

namespace MiniC.Lower

open Emit

/-- Emit a function. -/
def function (f : Typed.Function) : Located Unit := do
  located f.place (prologue f.routine f.parameters)
  stmts f.routine f.body
  located f.place (epilogue f.routine)

/-- Emit global objects. -/
def globals : List Typed.Global → Located Unit
  | [] => pure ()
  | g :: gs => do
    located g.place (declareGlobal g.symbol g.init)
    globals gs

/-- Emit functions. -/
def functions : List Typed.Function → Located Unit
  | [] => pure ()
  | f :: fs => do
    function f
    functions fs

/-- Emit a program. -/
def program (p : Typed.Program) : Located Unit := do
  located .unknown preamble
  globals p.globals
  functions p.functions
  located .unknown postamble

/-- Generate the assembly file of a program. -/
def generate (setting : Setting) (p : Typed.Program) : Except Failure String :=
  match (program p setting).run {} with
  | (.ok (), e) => .ok e.output
  | (.error failure, _) => .error failure

end MiniC.Lower
