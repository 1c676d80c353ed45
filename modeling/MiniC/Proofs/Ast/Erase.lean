import MiniC.Ast
import Mathlib

/-!
# Trees without their ranges

Two trees are the same program when they differ only in the ranges of source their nodes were read
from. `erase` forgets the ranges, so that this is an equation between erased trees.
-/

set_option autoImplicit false

namespace MiniC.Ast

/-! ### Expressions -/

mutual

/-- The expression without its ranges. -/
def Expr.erase : Expr → Expr
  | literal v _ => literal v .unknown
  | name n _ => name n .unknown
  | binary op l r _ => binary op l.erase r.erase .unknown
  | unary op e _ => unary op e.erase .unknown
  | assign op t v _ => assign op t.erase v.erase .unknown
  | call f args _ => call f (Expr.eraseAll args) .unknown
  | index a i _ => index a.erase i.erase .unknown
  | cast t e _ => cast t e.erase .unknown

/-- Expressions without their ranges. -/
def Expr.eraseAll : List Expr → List Expr
  | [] => []
  | e :: es => e.erase :: Expr.eraseAll es

end

@[simp] theorem Expr.eraseAll_eq_map (es : List Expr) : Expr.eraseAll es = es.map Expr.erase := by
  induction es with
  | nil => rfl
  | cons e es ih => rw [Expr.eraseAll, ih, List.map_cons]

@[simp] theorem Expr.erase_withSpan (e : Expr) (s : Span) : (e.withSpan s).erase = e.erase := by
  cases e <;> simp only [Expr.withSpan, Expr.erase]

theorem Expr.span_withSpan (e : Expr) (s : Span) : (e.withSpan s).span = s := by
  cases e <;> rfl

@[simp] theorem Expr.span_erase (e : Expr) : e.erase.span = .unknown := by
  cases e <;> rfl

theorem Expr.withSpan_eq {e : Expr} {s : Span} (h : e.span = s) : e.withSpan s = e := by
  subst h
  cases e <;> rfl

/-! ### Initializers and declarations -/

mutual

/-- The initializer without its ranges. -/
def Initializer.erase : Initializer → Initializer
  | expr e => expr e.erase
  | list items _ => list (Initializer.eraseAll items) .unknown

/-- Initializers without their ranges. -/
def Initializer.eraseAll : List Initializer → List Initializer
  | [] => []
  | i :: is => i.erase :: Initializer.eraseAll is

end

@[simp] theorem Initializer.eraseAll_eq_map (is : List Initializer) :
    Initializer.eraseAll is = is.map Initializer.erase := by
  induction is with
  | nil => rfl
  | cons i is ih => rw [Initializer.eraseAll, ih, List.map_cons]

@[simp] theorem Initializer.span_erase (i : Initializer) : i.erase.span = .unknown := by
  cases i with
  | expr e => exact e.span_erase
  | list items span => rfl

/-- The declaration without its ranges. -/
def Declaration.erase (d : Declaration) : Declaration :=
  ⟨d.name, d.type, d.init.map Initializer.erase, .unknown⟩

/-! ### Statements -/

mutual

/-- The statement without its ranges. -/
def Stmt.erase : Stmt → Stmt
  | expr e _ => expr e.erase .unknown
  | block body _ => block (Stmt.eraseAll body) .unknown
  | declare ds _ => declare (ds.map Declaration.erase) .unknown
  | print e _ => print e.erase .unknown
  | cond c t e _ => cond c.erase t.erase (Stmt.eraseOption e) .unknown
  | whileLoop c b _ => whileLoop c.erase b.erase .unknown
  | forLoop i c u b _ =>
    forLoop (Stmt.eraseOption i) (c.map Expr.erase) (u.map Expr.erase) b.erase .unknown
  | ret v _ => ret (v.map Expr.erase) .unknown
  | empty _ => empty .unknown

/-- Statements without their ranges. -/
def Stmt.eraseAll : List Stmt → List Stmt
  | [] => []
  | s :: ss => s.erase :: Stmt.eraseAll ss

/-- A statement, if there is one, without its ranges. -/
def Stmt.eraseOption : Option Stmt → Option Stmt
  | none => none
  | some s => some s.erase

end

@[simp] theorem Stmt.eraseAll_eq_map (ss : List Stmt) : Stmt.eraseAll ss = ss.map Stmt.erase := by
  induction ss with
  | nil => rfl
  | cons s ss ih => rw [Stmt.eraseAll, ih, List.map_cons]

@[simp] theorem Stmt.eraseOption_eq_map (s : Option Stmt) :
    Stmt.eraseOption s = s.map Stmt.erase := by
  cases s <;> rfl

@[simp] theorem Stmt.span_erase (s : Stmt) : s.erase.span = .unknown := by
  cases s <;> rfl

/-! ### Files -/

/-- The parameter without its range. -/
def Parameter.erase (p : Parameter) : Parameter := ⟨p.name, p.type, .unknown⟩

/-- The function without its ranges. -/
def Function.erase (f : Function) : Function :=
  ⟨f.name, f.result, f.parameters.map Parameter.erase, f.body.map Stmt.erase, .unknown⟩

/-- The item without its ranges. -/
def Item.erase : Item → Item
  | function f => function f.erase
  | declare ds => declare (ds.map Declaration.erase)

/-- The program without its ranges. -/
def Program.erase (p : Program) : Program := ⟨p.items.map Item.erase, .unknown⟩

end MiniC.Ast
