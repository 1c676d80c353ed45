import MiniC.Typed

/-!
# Typed programs without their places

Statements, global objects and functions keep the place they came from, for diagnostics. `erase`
forgets it; expressions have none.
-/

set_option autoImplicit false

namespace MiniC.Typed

mutual

/-- The statement without its places. -/
def Stmt.erase : Stmt → Stmt
  | block body => block (Stmt.eraseAll body)
  | print value _ => print value .unknown
  | declare symbol init _ => declare symbol init .unknown
  | expr e _ => expr e .unknown
  | cond c t e _ => cond c t.erase (Stmt.eraseOption e) .unknown
  | whileLoop c b _ => whileLoop c b.erase .unknown
  | forLoop i c u b _ => forLoop (Stmt.eraseOption i) c u b.erase .unknown
  | ret value _ => ret value .unknown
  | empty => empty

/-- Statements without their places. -/
def Stmt.eraseAll : List Stmt → List Stmt
  | [] => []
  | s :: ss => s.erase :: Stmt.eraseAll ss

/-- A statement, if there is one, without its places. -/
def Stmt.eraseOption : Option Stmt → Option Stmt
  | none => none
  | some s => some s.erase

end

@[simp] theorem Stmt.eraseAll_eq_map (ss : List Stmt) : Stmt.eraseAll ss = ss.map Stmt.erase := by
  induction ss with
  | nil => rfl
  | cons s ss ih => rw [Stmt.eraseAll, ih, List.map_cons]

@[simp] theorem Stmt.eraseOption_eq_map (s : Option Stmt) :
    Stmt.eraseOption s = s.map Stmt.erase := by
  cases s <;> rfl

/-- The global object without its place. -/
def Global.erase (g : Global) : Global := { g with place := .unknown }

/-- The function without its places. -/
def Function.erase (f : Function) : Function :=
  { f with body := f.body.map Stmt.erase, place := .unknown }

/-- The program without its places. -/
def Program.erase (p : Program) : Program :=
  ⟨p.globals.map Global.erase, p.functions.map Function.erase⟩

end MiniC.Typed
