import MiniC.Proofs.Typed.Eval

/-!
# What statements do

`Exec S s st x st'` says that the statement `s`, started in the store `st`, ends in the way `x` with the
store `st'`: at its own end, or by a return out of all the statements around it. A statement that runs
forever, or into a division without a result, has no such end. As in `MiniC.Proofs.Typed.Eval`, how
objects are kept is a parameter.

A `for` loop means `init; while (c) { body; update }`, and has rules of its own, since its code is not that
of another loop.
-/

set_option autoImplicit false

namespace MiniC.Typed

/-- How a statement ends. -/
inductive Ending where
  | normal
  /-- The function returns, with a value or without. -/
  | returned (value : Option Int)
deriving DecidableEq

section Rules

variable {σ : Type} (S : Storage σ)

/-- A condition is true, or there is none. -/
inductive Holds : Option Expr → σ → σ → Prop
  | absent {st : σ} : Holds none st st
  | present {t : Expr} {st st' : σ} {v : Int} (h : eval S t st = .ok (v, st')) (hv : v ≠ 0) :
    Holds (some t) st st'

/-- The value of an expression is dropped, if there is one. -/
inductive Drops : Option Expr → σ → σ → Prop
  | absent {st : σ} : Drops none st st
  | present {t : Expr} {st st' : σ} {v : Int} (h : eval S t st = .ok (v, st')) :
    Drops (some t) st st'

/-- The rules by which statements are executed. -/
inductive Exec : Stmt → σ → Ending → σ → Prop
  | nil {st : σ} : Exec (.block []) st .normal st
  | cons {s : Stmt} {rest : List Stmt} {st st1 st2 : σ} {x : Ending} (h : Exec s st .normal st1)
    (hrest : Exec (.block rest) st1 x st2) : Exec (.block (s :: rest)) st x st2
  | consReturn {s : Stmt} {rest : List Stmt} {st st' : σ} {v : Option Int}
    (h : Exec s st (.returned v) st') : Exec (.block (s :: rest)) st (.returned v) st'
  | declare {o : Symbol} {place : Location} {st : σ} : Exec (.declare o none place) st .normal st
  | declareInit {o : Symbol} {t : Expr} {place : Location} {st st' : σ} {v : Int}
    (h : eval S t st = .ok (v, st')) :
    Exec (.declare o (some (.scalar t)) place) st .normal (S.write st' o v)
  | expr {t : Expr} {place : Location} {st st' : σ} {v : Int} (h : eval S t st = .ok (v, st')) :
    Exec (.expr t place) st .normal st'
  | condTrue {c : Expr} {s : Stmt} {branch : Option Stmt} {place : Location} {st st1 st2 : σ}
    {v : Int} {x : Ending} (hc : eval S c st = .ok (v, st1)) (hv : v ≠ 0) (h : Exec s st1 x st2) :
    Exec (.cond c s branch place) st x st2
  | condFalse {c : Expr} {s s' : Stmt} {place : Location} {st st1 st2 : σ} {x : Ending}
    (hc : eval S c st = .ok (0, st1)) (h : Exec s' st1 x st2) :
    Exec (.cond c s (some s') place) st x st2
  | condSkip {c : Expr} {s : Stmt} {place : Location} {st st' : σ}
    (hc : eval S c st = .ok (0, st')) : Exec (.cond c s none place) st .normal st'
  | whileStop {c : Expr} {body : Stmt} {place : Location} {st st' : σ}
    (hc : eval S c st = .ok (0, st')) : Exec (.whileLoop c body place) st .normal st'
  | whileStep {c : Expr} {body : Stmt} {place : Location} {st st1 st2 st3 : σ} {v : Int}
    {x : Ending} (hc : eval S c st = .ok (v, st1)) (hv : v ≠ 0) (h : Exec body st1 .normal st2)
    (hrest : Exec (.whileLoop c body place) st2 x st3) : Exec (.whileLoop c body place) st x st3
  | whileReturn {c : Expr} {body : Stmt} {place : Location} {st st1 st2 : σ} {v : Int}
    {r : Option Int} (hc : eval S c st = .ok (v, st1)) (hv : v ≠ 0)
    (h : Exec body st1 (.returned r) st2) : Exec (.whileLoop c body place) st (.returned r) st2
  | forInit {init : Stmt} {c update : Option Expr} {body : Stmt} {place : Location}
    {st st1 st2 : σ} {x : Ending} (h : Exec init st .normal st1)
    (hrest : Exec (.forLoop none c update body place) st1 x st2) :
    Exec (.forLoop (some init) c update body place) st x st2
  | forInitReturn {init : Stmt} {c update : Option Expr} {body : Stmt} {place : Location}
    {st st' : σ} {r : Option Int} (h : Exec init st (.returned r) st') :
    Exec (.forLoop (some init) c update body place) st (.returned r) st'
  | forStop {c : Expr} {update : Option Expr} {body : Stmt} {place : Location} {st st' : σ}
    (hc : eval S c st = .ok (0, st')) :
    Exec (.forLoop none (some c) update body place) st .normal st'
  | forStep {c update : Option Expr} {body : Stmt} {place : Location} {st st1 st2 st3 st4 : σ}
    {x : Ending} (hc : Holds S c st st1) (h : Exec body st1 .normal st2)
    (hu : Drops S update st2 st3) (hrest : Exec (.forLoop none c update body place) st3 x st4) :
    Exec (.forLoop none c update body place) st x st4
  | forReturn {c update : Option Expr} {body : Stmt} {place : Location} {st st1 st2 : σ}
    {r : Option Int} (hc : Holds S c st st1) (h : Exec body st1 (.returned r) st2) :
    Exec (.forLoop none c update body place) st (.returned r) st2
  | retValue {t : Expr} {place : Location} {st st' : σ} {v : Int}
    (h : eval S t st = .ok (v, st')) :
    Exec (.ret (some t) place) st (.returned (some v)) st'
  | ret {place : Location} {st : σ} : Exec (.ret none place) st (.returned none) st
  | empty {st : σ} : Exec .empty st .normal st

end Rules

end MiniC.Typed
